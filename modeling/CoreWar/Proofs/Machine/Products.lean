import CoreWar.Proofs.Machine.Readback

/-!
# Exact products

A product multiplies the accumulator, `al` or `ax`, and goes back there if it fits.  If it
does not, it takes the accumulator of double width, `ax` or `bx` and `ax`.  The number is
the exact product of what the operand and the accumulator stand for, read without or with
signs, and overflow and carry tell which of the two places it has taken
(`products_exact`).

The numbers are multiplied in machine integers of double width, which wrap.  No product of
two values of a width is too large for the double width, so that nothing is lost there
(`wordProduct_eq`).
-/

namespace CoreWar

/-! ## Readings -/

namespace Signedness

variable {s : Signedness} {size : Nat} {x : Int}

/-- A number that is an integer modulo the number of values reads as that integer, if there
is a number for it at all. -/
theorem read_eq_of_fits {n : Nat} (hn : (n : Int) = x % size) (hx : s.fits size x = true) :
    s.read size n = x := by
  cases s with
  | unsigned =>
      obtain ⟨hnonneg, hlt⟩ := fits_unsigned_iff.mp hx
      rw [read, hn, Int.emod_eq_of_lt hnonneg hlt]
  | signed =>
      obtain ⟨hge, hlt⟩ := fits_signed_iff.mp hx
      rw [read, hn, Int.emod_bmod, Int.bmod_eq_of_le_mul_two (by omega) (by omega)]

theorem read_emod {n : Nat} (hn : n < size) : s.read size n % size = n := by
  have hmod : (n : Int) % size = n := Int.emod_eq_of_lt (Int.natCast_nonneg n) (Int.ofNat_lt.mpr hn)
  cases s with
  | unsigned => exact hmod
  | signed => exact (Int.bmod_emod).trans hmod

theorem fits_read {n : Nat} (hn : n < size) : s.fits size (s.read size n) = true := by
  cases s with
  | unsigned => exact fits_unsigned_iff.mpr ⟨Int.natCast_nonneg n, Int.ofNat_lt.mpr hn⟩
  | signed =>
      have hpos : 0 < size := Nat.zero_lt_of_lt hn
      have hge := Int.le_bmod (x := n) hpos
      have hlt := Int.bmod_lt (x := n) hpos
      rw [fits_signed_iff, read]
      omega

end Signedness

/-! ## The accumulator -/

namespace Thread

variable (t : Thread)

/-- What the accumulator of a width holds: `al` or `ax`. -/
def accumulator : Width → UInt16
  | .byte => (Word.low t.ax).toUInt16
  | .word => t.ax

/-- What stands above the accumulator of a width: `ah` or `bx`. -/
def extension : Width → UInt16
  | .byte => (Word.high t.ax).toUInt16
  | .word => t.bx

/-- The number that the accumulator of double width holds: `ax`, or `bx` and `ax`. -/
def double (w : Width) : Nat := (t.extension w).toNat * w.size + (t.accumulator w).toNat

theorem accumulator_lt (w : Width) : (t.accumulator w).toNat < w.size := by
  cases w with
  | byte => exact Width.toNat_byte_lt _ _
  | word => exact UInt16.toNat_lt _

theorem extension_lt (w : Width) : (t.extension w).toNat < w.size := by
  cases w with
  | byte => exact Width.toNat_byte_lt _ _
  | word => exact UInt16.toNat_lt _

theorem double_lt (w : Width) : t.double w < w.size * w.size := by
  have hle := Nat.mul_le_mul_right w.size (Nat.succ_le_of_lt (t.extension_lt w))
  have hlt := t.accumulator_lt w
  rw [Nat.succ_mul] at hle
  rw [double]
  omega

theorem double_byte : t.double .byte = t.ax.toNat := by
  rw [double, accumulator, extension, UInt8.toNat_toUInt16, UInt8.toNat_toUInt16,
    Word.toNat_high, Word.toNat_low, Width.size]
  omega

theorem double_word : t.double .word = t.bx.toNat * 65536 + t.ax.toNat := rfl

end Thread

theorem Word.toNat_ofInt (x : Int) : ((UInt16.ofInt x).toNat : Int) = x % 65536 := by
  have hnonneg : 0 ≤ x % 65536 := Int.emod_nonneg x (by decide)
  have hlt : x % 65536 < 65536 := Int.emod_lt_of_pos x (by decide)
  change ((UInt16.ofNat (x % 65536).toNat).toNat : Int) = _
  rw [UInt16.toNat_ofNat_of_lt' (by simp only [UInt16.size]; omega), Int.toNat_of_nonneg hnonneg]

theorem Word.toNat_byteOfInt (x : Int) :
    ((UInt8.ofInt x).toUInt16.toNat : Int) = x % 256 := by
  have hnonneg : 0 ≤ x % 256 := Int.emod_nonneg x (by decide)
  have hlt : x % 256 < 256 := Int.emod_lt_of_pos x (by decide)
  change ((UInt8.ofNat (x % 256).toNat).toUInt16.toNat : Int) = _
  rw [UInt8.toNat_toUInt16, UInt8.toNat_ofNat_of_lt' (by simp only [UInt8.size]; omega),
    Int.toNat_of_nonneg hnonneg]

/-! ## Products in machine integers -/

namespace Alu

theorem toInt_toInt8 {v : UInt16} (hv : v.toNat < 256) :
    v.toUInt8.toInt8.toInt = Signedness.signed.read 256 v.toNat := by
  change v.toUInt8.toBitVec.toInt = _
  rw [BitVec.toInt_eq_toNat_bmod]
  change Int.bmod v.toUInt8.toNat 256 = _
  rw [UInt16.toNat_toUInt8, Nat.mod_eq_of_lt hv]
  rfl

theorem toInt_toInt16 (v : UInt16) : v.toInt16.toInt = Signedness.signed.read 65536 v.toNat :=
  BitVec.toInt_eq_toNat_bmod v.toBitVec

variable {s : Signedness} {w : Width} {a v : UInt16} {t : Thread}

/-- Products of two values of a width fit the double width. -/
theorem fits_mul (ha : a.toNat < w.size) (hv : v.toNat < w.size) :
    s.fits (w.size * w.size) (s.read w.size a.toNat * s.read w.size v.toNat) = true := by
  obtain ⟨half, hpos, hhalf⟩ := w.exists_two_mul
  have hx := Signedness.fits_read (s := s) ha
  have hy := Signedness.fits_read (s := s) hv
  cases s with
  | unsigned =>
      have hlt : a.toNat * v.toNat < w.size * w.size := Nat.mul_lt_mul'' ha hv
      exact Signedness.fits_unsigned_iff.mpr
        ⟨Int.mul_nonneg (Int.natCast_nonneg _) (Int.natCast_nonneg _), Int.ofNat_lt.mpr hlt⟩
  | signed =>
      rw [Signedness.fits_signed_iff] at hx hy
      generalize Signedness.signed.read w.size a.toNat = x at hx ⊢
      generalize Signedness.signed.read w.size v.toNat = y at hy ⊢
      have hmul : (x * y).natAbs ≤ half * half := by
        rw [Int.natAbs_mul]
        exact Nat.mul_le_mul (by omega) (by omega)
      have hsize : w.size * w.size = 4 * (half * half) := by
        rw [hhalf, Nat.mul_mul_mul_comm]
      have hhalves : 0 < half * half := Nat.mul_pos hpos hpos
      rw [Signedness.fits_signed_iff, hsize]
      omega

/-- Machine integers of double width give the exact product. -/
theorem wordProduct_eq (ha : a.toNat < w.size) (hv : v.toNat < w.size) :
    wordProduct s w a v = s.read w.size a.toNat * s.read w.size v.toNat := by
  have hfits := fits_mul (s := s) ha hv
  cases s with
  | unsigned =>
      obtain ⟨hnonneg, hlt⟩ := Signedness.fits_unsigned_iff.mp hfits
      have hexact := Int.emod_eq_of_lt hnonneg hlt
      cases w with
      | byte =>
          rw [← hexact, wordProduct, UInt16.toNat_mul]
          rfl
      | word =>
          rw [← hexact, wordProduct, UInt32.toNat_mul]
          rfl
  | signed =>
      obtain ⟨hge, hlt⟩ := Signedness.fits_signed_iff.mp hfits
      have hexact := Int.bmod_eq_of_le_mul_two (y := w.size * w.size)
        (x := Signedness.signed.read w.size a.toNat * Signedness.signed.read w.size v.toNat)
        (by omega) (by omega)
      cases w with
      | byte =>
          rw [← hexact, wordProduct, Int16.toInt_mul, Int8.toInt_toInt16, Int8.toInt_toInt16,
            toInt_toInt8 ha, toInt_toInt8 hv]
          rfl
      | word =>
          rw [← hexact, wordProduct, Int32.toInt_mul, Int16.toInt_toInt32, Int16.toInt_toInt32,
            toInt_toInt16, toInt_toInt16]
          rfl

/-! ## Where the product goes -/

/-- What an exact product `p` leaves of a thread: the product is in the accumulator, with what
stands above it as before, if it fits there, and in the accumulator of double width if it
does not.  Overflow and carry tell that it does not, and nothing else has changed. -/
structure Multiplied (s : Signedness) (w : Width) (p : Int) (t t' : Thread) : Prop where
  thread_eq : t' =
    { t with
      ax := t'.ax
      bx := t'.bx
      flags := { t.flags with overflow := !s.fits w.size p, carry := !s.fits w.size p } }
  bx_eq : w = .byte → t'.bx = t.bx
  of_fits : s.fits w.size p = true →
    ((t'.accumulator w).toNat : Int) = p % w.size ∧
      s.read w.size (t'.accumulator w).toNat = p ∧ t'.extension w = t.extension w
  of_not_fits : s.fits w.size p = false →
    (t'.double w : Int) = p % (w.size * w.size : Nat) ∧
      s.read (w.size * w.size) (t'.double w) = p

/-- The exact product of the accumulator and a value. -/
def product (s : Signedness) (w : Width) (v : UInt16) (t : Thread) : Int :=
  s.read w.size (t.accumulator w).toNat * s.read w.size v.toNat

theorem multiply_byte (s : Signedness) (t : Thread) (hv : v.toNat < 256) :
    let p := product s .byte v t
    multiply s .byte v t =
      { t.setOverflowCarry (!s.fits 256 p) with
        ax :=
          if s.fits 256 p then Word.ofBytes (Word.high t.ax) (UInt8.ofInt p)
          else UInt16.ofInt p } := by
  intro p
  have hp : wordProduct s .byte (t.accumulator .byte) v = p :=
    wordProduct_eq (t.accumulator_lt .byte) hv
  have hmultiply : multiply s .byte v t =
      if !s.fits 256 p then
        { t.setOverflowCarry (!s.fits 256 p) with ax := UInt16.ofInt p }
      else
        { t.setOverflowCarry (!s.fits 256 p) with
          ax := Word.ofBytes (Word.high t.ax) (UInt8.ofInt p) } := by
    rw [← hp]
    rfl
  rw [hmultiply]
  cases s.fits 256 p with
  | true => rfl
  | false => rfl

theorem multiply_word (s : Signedness) (v : UInt16) (t : Thread) :
    let p := product s .word v t
    multiply s .word v t =
      { t.setOverflowCarry (!s.fits 65536 p) with
        ax := UInt16.ofInt p
        bx := if s.fits 65536 p then t.bx else UInt16.ofInt (p / 65536) } := by
  intro p
  have hp : wordProduct s .word (t.accumulator .word) v = p :=
    wordProduct_eq (t.accumulator_lt .word) v.toNat_lt
  have hmultiply : multiply s .word v t =
      if !s.fits 65536 p then
        { t.setOverflowCarry (!s.fits 65536 p) with
          ax := UInt16.ofInt p
          bx := UInt16.ofInt (p / 65536) }
      else
        { t.setOverflowCarry (!s.fits 65536 p) with ax := UInt16.ofInt p } := by
    rw [← hp]
    rfl
  rw [hmultiply]
  cases s.fits 65536 p with
  | true => rfl
  | false => rfl

/-- The accumulator of a product that fits, and what stands above it. -/
theorem multiply_of_fits (hv : v.toNat < w.size)
    (hfits : s.fits w.size (product s w v t) = true) :
    (((multiply s w v t).accumulator w).toNat : Int) = product s w v t % w.size ∧
      (multiply s w v t).extension w = t.extension w := by
  cases w with
  | byte =>
      have hfits : s.fits 256 (product s .byte v t) = true := hfits
      rw [multiply_byte s t hv, hfits, if_pos rfl]
      constructor
      · change ((Word.low (Word.ofBytes _ (UInt8.ofInt _))).toUInt16.toNat : Int) = _
        rw [Word.low_ofBytes]
        exact Word.toNat_byteOfInt _
      · change (Word.high (Word.ofBytes (Word.high t.ax) _)).toUInt16 = _
        rw [Word.high_ofBytes]
        rfl
  | word =>
      have hfits : s.fits 65536 (product s .word v t) = true := hfits
      rw [multiply_word, hfits, if_pos rfl]
      exact ⟨Word.toNat_ofInt _, rfl⟩

/-- The accumulator of double width of a product that does not fit. -/
theorem multiply_of_not_fits (hv : v.toNat < w.size)
    (hfits : s.fits w.size (product s w v t) = false) :
    ((multiply s w v t).double w : Int) = product s w v t % (w.size * w.size : Nat) := by
  cases w with
  | byte =>
      have hfits : s.fits 256 (product s .byte v t) = false := hfits
      rw [multiply_byte s t hv, hfits, if_neg Bool.false_ne_true, Thread.double_byte]
      exact Word.toNat_ofInt _
  | word =>
      have hfits : s.fits 65536 (product s .word v t) = false := hfits
      have hlow := Word.toNat_ofInt (product s .word v t)
      have hhigh := Word.toNat_ofInt (product s .word v t / 65536)
      rw [multiply_word, hfits, if_neg Bool.false_ne_true, Thread.double_word]
      simp only [Width.size]
      omega

theorem multiplied_multiply (t : Thread) (hv : v.toNat < w.size) :
    Multiplied s w (product s w v t) t (multiply s w v t) := by
  constructor
  · cases w with
    | byte => rw [multiply_byte s t hv]; rfl
    | word => rw [multiply_word]; rfl
  · rintro rfl
    rw [multiply_byte s t hv]
    rfl
  · intro hfits
    obtain ⟨hvalue, hextension⟩ := multiply_of_fits hv hfits
    exact ⟨hvalue, Signedness.read_eq_of_fits hvalue hfits, hextension⟩
  · intro hfits
    have hvalue := multiply_of_not_fits hv hfits
    exact ⟨hvalue, Signedness.read_eq_of_fits hvalue (fits_mul (t.accumulator_lt w) hv)⟩

end Alu

/-! ## Products of the machine -/

namespace Machine

/-- An operation multiplies the accumulator by an operand, both read at the operand's own
width, and leaves the arena as it is.  Machine integers of double width lose nothing of the
product. -/
structure Multiplies (m : Machine) (s : Signedness) (src : Storage) (o : Outcome Unit) :
    Prop where
  result_eq : o.result = .ok ()
  machine_eq : o.machine = m.withThread o.machine.thread
  wordProduct_eq :
    Alu.wordProduct s src.width (m.thread.accumulator src.width) (m.value src) =
      Alu.product s src.width (m.value src) m.thread
  multiplied :
    Alu.Multiplied s src.width (Alu.product s src.width (m.value src) m.thread) m.thread
      o.machine.thread

theorem multiplies_multiply (m : Machine) (s : Signedness) (src : Storage) :
    m.Multiplies s src ⟨m.multiply s src, .ok ()⟩ := by
  have hv : (m.value src).toNat < src.width.size := m.read_lt src src.width
  constructor
  · rfl
  · rfl
  · exact Alu.wordProduct_eq (m.thread.accumulator_lt src.width) hv
  · exact Alu.multiplied_multiply m.thread hv

/-- Products are exact, without and with signs: a product that fits replaces the accumulator
and spares what stands above it, a product that does not fit takes the accumulator of double
width, and overflow and carry tell which. -/
theorem products_exact (m : Machine) (src : Storage) :
    m.Multiplies .unsigned src (m.applyUnary .mul src) ∧
      m.Multiplies .signed src (m.applyUnary .imul src) :=
  ⟨m.multiplies_multiply .unsigned src, m.multiplies_multiply .signed src⟩

/-- A product takes both registers also where the operand is one of them: the square of
-300 does not fit a word. -/
example :
    let m : Machine := ⟨{ ax := -300, bx := -300 }, .empty, 1⟩
    let t := (m.applyUnary .imul (.register .bx .full)).machine.thread
    (t.bx, t.ax) = (1, 90000 - 65536) := by
  decide +kernel

end Machine
end CoreWar
