import CoreWar.Proofs.Machine.Products

/-!
# Exact quotients

A quotient divides the accumulator of double width, `ax` or `bx` and `ax`, by an operand
that is not zero.  It is the exact quotient of the numbers that the two stand for, truncated
toward zero, and goes to the accumulator, with the remainder above it (`quotients_exact`).

A remainder is smaller than the divisor and therefore fits its place.  A quotient need not
fit: overflow tells, and the accumulator then holds it modulo the number of values.  As long
as there is no overflow, the dividend can be had back from the two and the divisor.

The division takes place in machine integers: without signs in those of double width, with
signs in those of twice that width.  In double width the lowest signed number would have no
quotient by minus one; in the larger integers every quotient exists (`wordQuotient_eq`).
-/

namespace CoreWar
namespace Alu

/-! ## Truncated quotients -/

/-- Quotient and remainder of a number by another, the quotient truncated toward zero: the
remainder is smaller than the divisor and does not have the sign opposite to the dividend. -/
structure Truncates (n d q r : Int) : Prop where
  dividend_eq : n = q * d + r
  natAbs_lt : r.natAbs < d.natAbs
  quotient_eq : q = n.tdiv d
  sign_eq : r = 0 ∨ r.sign = n.sign

theorem truncates_tdiv_tmod (n : Int) {d : Int} (hd : d ≠ 0) :
    Truncates n d (n.tdiv d) (n.tmod d) := by
  constructor
  · exact (Int.tdiv_mul_add_tmod n d).symm
  · rw [Int.natAbs_tmod]
    exact Nat.mod_lt _ (Int.natAbs_pos.mpr hd)
  · rfl
  · by_cases hdvd : d ∣ n
    · exact .inl (Int.tmod_eq_zero_of_dvd hdvd)
    · exact .inr (by rw [Int.sign_tmod, if_neg hdvd])

/-! ## Quotients in machine integers -/

/-- The number that is divided: what the accumulator of double width stands for. -/
def dividend (s : Signedness) (w : Width) (t : Thread) : Int :=
  s.read (w.size * w.size) (t.double w)

variable {s : Signedness} {w : Width} {v : UInt16} {t : Thread}

theorem toNat_join (high low : UInt16) :
    (high.toUInt32 <<< 16 ||| low.toUInt32).toNat = high.toNat * 65536 + low.toNat := by
  have hhigh := high.toNat_lt
  have hlow : low.toNat < 2 ^ 16 := low.toNat_lt
  have hshift : (high.toUInt32 <<< 16).toNat = high.toNat <<< 16 := by
    rw [UInt32.toNat_shiftLeft, UInt16.toNat_toUInt32]
    change high.toNat <<< 16 % 2 ^ 32 = high.toNat <<< 16
    rw [Nat.shiftLeft_eq]
    omega
  rw [UInt32.toNat_or, hshift, UInt16.toNat_toUInt32,
    ← Nat.shiftLeft_add_eq_or_of_lt hlow, Nat.shiftLeft_eq]

theorem toInt_toInt32 (v : UInt32) :
    v.toInt32.toInt = Signedness.signed.read 4294967296 v.toNat :=
  BitVec.toInt_eq_toNat_bmod v.toBitVec

/-- Signed dividends are far from the lowest machine integer of the next larger ones. -/
theorem natAbs_dividend_le (w : Width) (t : Thread) :
    2 * (dividend .signed w t).natAbs ≤ w.size * w.size := by
  have hfits := Signedness.fits_read (s := .signed) (t.double_lt w)
  rw [Signedness.fits_signed_iff] at hfits
  rw [dividend]
  omega

/-- The exact quotient of the dividend by a value, truncated toward zero. -/
def quotient (s : Signedness) (w : Width) (v : UInt16) (t : Thread) : Int :=
  (dividend s w t).tdiv (s.read w.size v.toNat)

/-- What the exact quotient leaves of the dividend. -/
def remainder (s : Signedness) (w : Width) (v : UInt16) (t : Thread) : Int :=
  (dividend s w t).tmod (s.read w.size v.toNat)

/-- Machine integers give the exact quotient and what it leaves. -/
theorem wordQuotient_eq (hv : v.toNat < w.size) :
    wordQuotient s w v t = (quotient s w v t, remainder s w v t) := by
  rw [quotient, remainder]
  generalize hn : dividend s w t = n
  generalize hd : s.read w.size v.toNat = d
  cases s with
  | unsigned =>
      cases w with
      | byte =>
          have hax : (t.ax.toNat : Int) = n := by rw [← hn, dividend, t.double_byte]; rfl
          simp only [wordQuotient, UInt16.toNat_div, UInt16.toNat_mod, Int.ofNat_tdiv,
            Int.ofNat_tmod, hax]
          rw [← hd]
          rfl
      | word =>
          simp only [wordQuotient, UInt32.toNat_div, UInt32.toNat_mod, toNat_join,
            UInt16.toNat_toUInt32, Int.ofNat_tdiv, Int.ofNat_tmod]
          rw [← hn, ← hd]
          rfl
  | signed =>
      have hq := Int.natAbs_tdiv_le_natAbs n d
      have hle := natAbs_dividend_le w t
      rw [hn] at hle
      cases w with
      | byte =>
          have hle : 2 * n.natAbs ≤ 65536 := hle
          have hax : t.ax.toInt16.toInt = n := by
            rw [toInt_toInt16, ← t.double_byte]
            exact hn
          have hvalue : v.toUInt8.toInt8.toInt = d := (toInt_toInt8 hv).trans hd
          have hexact : (n.tdiv d).bmod (2 ^ 32) = n.tdiv d :=
            Int.bmod_eq_of_le_mul_two (by omega) (by omega)
          simp only [wordQuotient, Int32.toInt_div, Int32.toInt_mod, Int16.toInt_toInt32,
            Int8.toInt_toInt32, hax, hvalue, hexact]
      | word =>
          have hle : 2 * n.natAbs ≤ 4294967296 := hle
          have hjoin : (t.bx.toUInt32 <<< 16 ||| t.ax.toUInt32).toInt32.toInt = n := by
            rw [toInt_toInt32, toNat_join]
            exact hn
          have hvalue : v.toInt16.toInt = d := (toInt_toInt16 v).trans hd
          have hexact : (n.tdiv d).bmod (2 ^ 64) = n.tdiv d :=
            Int.bmod_eq_of_le_mul_two (by omega) (by omega)
          simp only [wordQuotient, Int64.toInt_div, Int64.toInt_mod, Int32.toInt_toInt64,
            Int16.toInt_toInt64, hjoin, hvalue, hexact]

/-! ## Where quotient and remainder go -/

/-- What dividing leaves of a thread, with quotient `q` and remainder `r`: the quotient is in
the accumulator, modulo the number of values, and the remainder above it.  Overflow tells
that the quotient does not fit, and nothing else has changed. -/
structure Divided (s : Signedness) (w : Width) (q r : Int) (t t' : Thread) : Prop where
  thread_eq : t' =
    { t with
      ax := t'.ax
      bx := t'.bx
      flags := { t.flags with overflow := !s.fits w.size q } }
  bx_eq : w = .byte → t'.bx = t.bx
  quotient_eq : ((t'.accumulator w).toNat : Int) = q % w.size
  remainder_fits : s.fits w.size r = true
  remainder_eq : s.read w.size (t'.extension w).toNat = r

theorem divide?_byte (s : Signedness) (t : Thread) (hv : v.toNat < 256) (hne : v ≠ 0) :
    divide? s .byte v t = some
      { t with
        flags := { t.flags with overflow := !s.fits 256 (quotient s .byte v t) }
        ax := Word.ofBytes (UInt8.ofInt (remainder s .byte v t))
          (UInt8.ofInt (quotient s .byte v t)) } := by
  have hword : wordQuotient s .byte v t = (quotient s .byte v t, remainder s .byte v t) :=
    wordQuotient_eq hv
  rw [divide?, if_neg hne, hword]
  rfl

theorem divide?_word (s : Signedness) (t : Thread) (hne : v ≠ 0) :
    divide? s .word v t = some
      { t with
        flags := { t.flags with overflow := !s.fits 65536 (quotient s .word v t) }
        ax := UInt16.ofInt (quotient s .word v t)
        bx := UInt16.ofInt (remainder s .word v t) } := by
  have hword : wordQuotient s .word v t = (quotient s .word v t, remainder s .word v t) :=
    wordQuotient_eq v.toNat_lt
  rw [divide?, if_neg hne, hword]
  rfl

/-- A remainder fits where a divisor does. -/
theorem fits_tmod {size : Nat} {n d : Int} (hd : s.fits size d = true) (hne : d ≠ 0)
    (hn : s = .unsigned → 0 ≤ n) : s.fits size (n.tmod d) = true := by
  have hlt := (truncates_tdiv_tmod n hne).natAbs_lt
  cases s with
  | unsigned =>
      have hnonneg := Int.tmod_nonneg d (hn rfl)
      rw [Signedness.fits_unsigned_iff] at hd ⊢
      omega
  | signed =>
      rw [Signedness.fits_signed_iff] at hd ⊢
      omega

theorem read_ne_zero (hv : v.toNat < w.size) (hne : v ≠ 0) : s.read w.size v.toNat ≠ 0 := by
  intro hzero
  have hread : s.read w.size v.toNat % w.size = v.toNat := Signedness.read_emod hv
  rw [hzero, Int.zero_emod] at hread
  exact hne (UInt16.toNat_inj.mp (Int.ofNat_inj.mp hread.symm))

theorem truncates_dividend (hv : v.toNat < w.size) (hne : v ≠ 0) :
    Truncates (dividend s w t) (s.read w.size v.toNat) (quotient s w v t)
      (remainder s w v t) :=
  truncates_tdiv_tmod _ (read_ne_zero hv hne)

theorem fits_remainder (hv : v.toNat < w.size) (hne : v ≠ 0) :
    s.fits w.size (remainder s w v t) = true := by
  refine fits_tmod (Signedness.fits_read hv) (read_ne_zero hv hne) ?_
  rintro rfl
  exact Int.natCast_nonneg _

/-- There is a quotient by everything but zero, and it goes where it should. -/
theorem exists_divided (t : Thread) (hv : v.toNat < w.size) (hne : v ≠ 0) :
    ∃ t', divide? s w v t = some t' ∧
      Divided s w (quotient s w v t) (remainder s w v t) t t' := by
  have hfits := fits_remainder (s := s) (t := t) hv hne
  cases w with
  | byte =>
      refine ⟨_, divide?_byte s t hv hne, rfl, fun _ => rfl, ?_, hfits,
        Signedness.read_eq_of_fits ?_ hfits⟩
      · change ((Word.low (Word.ofBytes _ (UInt8.ofInt _))).toUInt16.toNat : Int) = _
        rw [Word.low_ofBytes]
        exact Word.toNat_byteOfInt _
      · change ((Word.high (Word.ofBytes (UInt8.ofInt _) _)).toUInt16.toNat : Int) = _
        rw [Word.high_ofBytes]
        exact Word.toNat_byteOfInt _
  | word =>
      refine ⟨_, divide?_word s t hne, rfl, (nomatch ·), Word.toNat_ofInt _, hfits,
        Signedness.read_eq_of_fits (Word.toNat_ofInt _) hfits⟩

/-- Without overflow the accumulator and what stands above it read as quotient and
remainder. -/
theorem Divided.dividend_eq {q r n d : Int} {t t' : Thread} (h : Divided s w q r t t')
    (hq : Truncates n d q r) (hoverflow : t'.flags.overflow = false) :
    n = s.read w.size (t'.accumulator w).toNat * d +
      s.read w.size (t'.extension w).toNat := by
  have hfits : s.fits w.size q = true := by
    rw [h.thread_eq] at hoverflow
    simpa using hoverflow
  rw [Signedness.read_eq_of_fits h.quotient_eq hfits, h.remainder_eq]
  exact hq.dividend_eq

end Alu

/-! ## Quotients of the machine -/

namespace Machine

/-- An operation divides the accumulator of double width by an operand, read at the operand's
own width, and leaves the arena as it is.  Machine integers lose nothing of quotient and
remainder, and without overflow the dividend can be had back. -/
structure Divides (m : Machine) (s : Signedness) (src : Storage) (o : Outcome Unit) :
    Prop where
  result_eq : o.result = .ok ()
  machine_eq : o.machine = m.withThread o.machine.thread
  truncates :
    Alu.Truncates (Alu.dividend s src.width m.thread)
      (s.read src.width.size (m.value src).toNat)
      (Alu.quotient s src.width (m.value src) m.thread)
      (Alu.remainder s src.width (m.value src) m.thread)
  wordQuotient_eq :
    Alu.wordQuotient s src.width (m.value src) m.thread =
      (Alu.quotient s src.width (m.value src) m.thread,
        Alu.remainder s src.width (m.value src) m.thread)
  divided :
    Alu.Divided s src.width (Alu.quotient s src.width (m.value src) m.thread)
      (Alu.remainder s src.width (m.value src) m.thread) m.thread o.machine.thread
  dividend_eq : o.machine.thread.flags.overflow = false →
    Alu.dividend s src.width m.thread =
      s.read src.width.size (o.machine.thread.accumulator src.width).toNat *
          s.read src.width.size (m.value src).toNat +
        s.read src.width.size (o.machine.thread.extension src.width).toNat

theorem divides_divide (m : Machine) (s : Signedness) {src : Storage} (hne : m.value src ≠ 0) :
    m.Divides s src (m.divide s src) := by
  have hv : (m.value src).toNat < src.width.size := m.read_lt src src.width
  obtain ⟨t, ht, hdivided⟩ := Alu.exists_divided (s := s) m.thread hv hne
  have hdivide : m.divide s src = ⟨m.withThread t, .ok ()⟩ := by
    rw [divide, ht]
  have htruncates := Alu.truncates_dividend (s := s) (t := m.thread) hv hne
  rw [hdivide]
  exact ⟨rfl, rfl, htruncates, Alu.wordQuotient_eq hv, hdivided, hdivided.dividend_eq htruncates⟩

/-- Quotients by an operand that is not zero are exact, without and with signs: the quotient
goes to the accumulator modulo the number of values, the remainder above it, and overflow
tells whether the quotient fits. -/
theorem quotients_exact (m : Machine) {src : Storage} (hne : m.value src ≠ 0) :
    m.Divides .unsigned src (m.applyUnary .div src) ∧
      m.Divides .signed src (m.applyUnary .idiv src) :=
  ⟨m.divides_divide .unsigned hne, m.divides_divide .signed hne⟩

/-- A thread with the lowest signed word in `ax` and minus one in `bl`. -/
def lowestDividend : Machine where
  thread := { ax := 0x8000, bx := 0x00FF }
  arena := .empty
  pid := 1

/-- The lowest word by minus one has a quotient, which is too large for `al` but not for the
integers in which it is formed. -/
theorem quotients_exact_lowestDividend :
    lowestDividend.value (.register .bx .low) ≠ 0 ∧
      lowestDividend.Divides .unsigned (.register .bx .low)
        (lowestDividend.applyUnary .div (.register .bx .low)) ∧
      lowestDividend.Divides .signed (.register .bx .low)
        (lowestDividend.applyUnary .idiv (.register .bx .low)) ∧
      Alu.wordQuotient .signed .byte 0xFF lowestDividend.thread = (32768, 0) ∧
      (lowestDividend.applyUnary .idiv (.register .bx .low)).machine.thread =
        { ax := 0, bx := 0x00FF, flags := { overflow := true } } := by
  have hne : lowestDividend.value (.register .bx .low) ≠ 0 := by decide +kernel
  obtain ⟨hunsigned, hsigned⟩ := quotients_exact lowestDividend hne
  exact ⟨hne, hunsigned, hsigned, by decide +kernel, by decide +kernel⟩

end Machine
end CoreWar
