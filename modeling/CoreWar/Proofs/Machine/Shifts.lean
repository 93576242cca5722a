import CoreWar.Proofs.Machine.Readback
import Mathlib.Data.Nat.Bitwise

/-!
# Shifts by any count

A shift multiplies or divides by a power of two.  What is stored is the product modulo the
number of values, or the quotient without its fraction, for every count that a word can
hold, also one beyond the width of the operation (`shifts_exact`).

Carry is the last bit that has left the value: it is found by a shift of one less, so that a
count of zero has no bit before it, and the end of the value stands in.  A shift to the left
takes place in double words, from which that bit can be had also at the full width
(`testBit_shiftLeft`).  Overflow belongs to the old value after a shift to the right; a shift
to the left sets it for a count of one only.
-/

namespace CoreWar

/-! ## Powers of two and bits -/

namespace Width

theorem size_eq_two_pow (w : Width) : w.size = 2 ^ w.bits := by
  cases w with
  | byte => rfl
  | word => rfl

theorem bits_pos (w : Width) : 0 < w.bits := by
  cases w with
  | byte => decide
  | word => decide

/-- The top bit of a value at a width. -/
def topBit (w : Width) (v : UInt16) : Bool := v.toNat.testBit (w.bits - 1)

theorem isNegative_eq_topBit {w : Width} {v : UInt16} (hv : v.toNat < w.size) :
    w.isNegative v = w.topBit v := by
  rw [Bool.eq_iff_iff, isNegative_iff, topBit, Nat.testBit_eq_decide_div_mod_eq,
    decide_eq_true_eq]
  cases w with
  | byte =>
      simp only [size, bits] at hv ⊢
      omega
  | word =>
      simp only [size, bits] at hv ⊢
      omega

end Width

namespace Alu

variable {w : Width} {v n : UInt16} {f : Flags}

theorem toNat_shiftLeft (v : UInt16) (n : Nat) :
    (shiftLeft v.toUInt32 n).toNat = v.toNat * 2 ^ n % 2 ^ 32 := by
  rw [shiftLeft]
  split
  next hlt =>
    have hcount : (UInt32.ofNat n).toNat % 32 = n := by
      rw [UInt32.toNat_ofNat_of_lt' (by simp only [UInt32.size]; omega), Nat.mod_eq_of_lt hlt]
    rw [UInt32.toNat_shiftLeft, hcount, UInt16.toNat_toUInt32, Nat.shiftLeft_eq]
  next hge =>
    obtain ⟨k, rfl⟩ := Nat.exists_eq_add_of_le (Nat.not_lt.mp hge)
    rw [Nat.pow_add, Nat.mul_left_comm]
    exact (Nat.mul_mod_right (2 ^ 32) _).symm

theorem toNat_shiftRight (v : UInt16) (n : Nat) :
    (shiftRight v n).toNat = v.toNat / 2 ^ n := by
  rw [shiftRight]
  split
  next hlt =>
    have hcount : (UInt16.ofNat n).toNat % 16 = n := by
      rw [UInt16.toNat_ofNat_of_lt' (by simp only [UInt16.size]; omega), Nat.mod_eq_of_lt hlt]
    rw [UInt16.toNat_shiftRight, hcount, Nat.shiftRight_eq_div_pow]
  next hge =>
    have hpow : 2 ^ 16 ≤ 2 ^ n := Nat.pow_le_pow_right (by decide) (Nat.not_lt.mp hge)
    rw [Nat.div_eq_of_lt (Nat.lt_of_lt_of_le v.toNat_lt hpow)]
    rfl

theorem toNat_truncate_shiftLeft (w : Width) (v : UInt16) (n : Nat) :
    (w.truncate (shiftLeft v.toUInt32 n).toUInt16).toNat = v.toNat * 2 ^ n % w.size := by
  have hdvd : 2 ^ 16 ∣ 2 ^ 32 := ⟨2 ^ 16, rfl⟩
  rw [Width.toNat_truncate, UInt32.toNat_toUInt16, toNat_shiftLeft, Nat.mod_mod_of_dvd _ hdvd]
  exact Nat.mod_mod_of_dvd _ w.size_dvd

theorem and_signBit_ne_zero (w : Width) (x : UInt32) :
    (x &&& w.signBit.toUInt32 != 0) = x.toNat.testBit (w.bits - 1) := by
  have hbit : (w.signBit.toUInt32).toNat = 2 ^ (w.bits - 1) := by
    cases w with
    | byte => rfl
    | word => rfl
  rw [Bool.eq_iff_iff, bne_iff_ne, ne_eq, ← UInt32.toNat_inj, UInt32.toNat_and, hbit,
    Nat.and_two_pow, UInt32.toNat_zero]
  cases x.toNat.testBit (w.bits - 1) with
  | false => simp
  | true => simp

/-- The bit that a move up by `n` bits brings to the top. -/
theorem testBit_shiftLeft (w : Width) (v : UInt16) (n : Nat) :
    (shiftLeft v.toUInt32 n).toNat.testBit (w.bits - 1) =
      (decide (n < w.bits) && v.toNat.testBit (w.bits - 1 - n)) := by
  have hpos := w.bits_pos
  have htop : w.bits - 1 < 32 := by
    cases w with
    | byte => decide
    | word => decide
  have hreach : w.bits - 1 ≥ n ↔ n < w.bits := by omega
  rw [toNat_shiftLeft, Nat.testBit_mod_two_pow, ← Nat.shiftLeft_eq, Nat.testBit_shiftLeft,
    decide_eq_true htop, Bool.true_and]
  simp only [hreach]

/-- The last bit that a move up by `n` bits takes out, if it takes one out. -/
theorem carry_shl (w : Width) (v n : UInt16) (f : Flags) :
    (shl w v n f).flags.carry =
      if n.toNat = 0 then w.topBit v
      else decide (n.toNat ≤ w.bits) && v.toNat.testBit (w.bits - n.toNat) := by
  have hpos := w.bits_pos
  change (shiftLeft v.toUInt32 (n.toNat - 1) &&& w.signBit.toUInt32 != 0) = _
  rw [and_signBit_ne_zero, testBit_shiftLeft]
  split
  next hzero =>
    rw [hzero, decide_eq_true hpos]
    rfl
  next hzero =>
    have hreach : n.toNat - 1 < w.bits ↔ n.toNat ≤ w.bits := by omega
    have hbit : w.bits - 1 - (n.toNat - 1) = w.bits - n.toNat := by omega
    simp only [hreach, hbit]

/-- The bit that a move down by `n` bits brings to the bottom. -/
theorem bottomBit_shiftRight (v : UInt16) (n : Nat) :
    (shiftRight v n % 2 == 1) = v.toNat.testBit n := by
  rw [Bool.eq_iff_iff, beq_iff_eq, ← UInt16.toNat_inj, UInt16.toNat_mod, toNat_shiftRight,
    Nat.testBit_eq_decide_div_mod_eq, decide_eq_true_eq]
  rfl

/-- The last bit that a move down by `n` bits takes out, if it takes one out. -/
theorem carry_shr (hv : v.toNat < w.size) :
    (shr w v n f).flags.carry =
      if n.toNat = 0 then v.toNat.testBit 0
      else decide (n.toNat ≤ w.bits) && v.toNat.testBit (n.toNat - 1) := by
  change (shiftRight v (n.toNat - 1) % 2 == 1) = _
  rw [bottomBit_shiftRight]
  split
  next hzero => rw [hzero]
  next hzero =>
    rcases Nat.lt_or_ge w.bits n.toNat with hlt | hge
    · have hpow : 2 ^ w.bits ≤ 2 ^ (n.toNat - 1) :=
        Nat.pow_le_pow_right (by decide) (by omega)
      rw [w.size_eq_two_pow] at hv
      rw [Nat.testBit_lt_two_pow (Nat.lt_of_lt_of_le hv hpow), Bool.and_false]
    · rw [decide_eq_true hge, Bool.true_and]

/-! ## Results of shifts -/

/-- A result is that of moving a value up by `n` bits: carry is the last bit moved out, or the
top bit if none is, and overflow tells of a move by one bit whether it has changed the top
bit. -/
structure Result.ShiftsLeft (r : Result) (w : Width) (v : UInt16) (n : Nat) (f : Flags) :
    Prop where
  value_eq : r.value.toNat = v.toNat * 2 ^ n % w.size
  zero_iff : r.flags.zero = true ↔ r.value = 0
  sign_eq : r.flags.sign = w.topBit r.value
  carry_eq : r.flags.carry =
    if n = 0 then w.topBit v else decide (n ≤ w.bits) && v.toNat.testBit (w.bits - n)
  overflow_eq : r.flags.overflow =
    if n = 1 then w.topBit r.value != w.topBit v else f.overflow

/-- A result is that of moving a value down by `n` bits: carry is the last bit moved out, or
the bottom bit if none is, and overflow is the top bit of the value. -/
structure Result.ShiftsRight (r : Result) (w : Width) (v : UInt16) (n : Nat) : Prop where
  value_eq : r.value.toNat = v.toNat / 2 ^ n
  zero_iff : r.flags.zero = true ↔ r.value = 0
  sign_eq : r.flags.sign = w.topBit r.value
  carry_eq : r.flags.carry =
    if n = 0 then v.toNat.testBit 0 else decide (n ≤ w.bits) && v.toNat.testBit (n - 1)
  overflow_eq : r.flags.overflow = w.topBit v

theorem Result.ShiftsLeft.value_lt {r : Result} {n : Nat} (h : r.ShiftsLeft w v n f) :
    r.value.toNat < w.size := by
  rw [h.value_eq, w.size_eq_two_pow]
  exact Nat.mod_lt _ (Nat.two_pow_pos w.bits)

theorem Result.ShiftsRight.value_lt {r : Result} {n : Nat} (h : r.ShiftsRight w v n)
    (hv : v.toNat < w.size) : r.value.toNat < w.size := by
  rw [h.value_eq]
  exact Nat.lt_of_le_of_lt (Nat.div_le_self _ _) hv

theorem shiftsLeft_shl (hv : v.toNat < w.size) : (shl w v n f).ShiftsLeft w v n.toNat f := by
  have hvalue : (shl w v n f).value.toNat = v.toNat * 2 ^ n.toNat % w.size :=
    toNat_truncate_shiftLeft w v n.toNat
  have hlt : (shl w v n f).value.toNat < w.size := by
    rw [hvalue]
    exact Nat.mod_lt _ (Nat.zero_lt_of_lt hv)
  have hsign : (shl w v n f).flags.sign = w.topBit (shl w v n f).value :=
    Width.isNegative_eq_topBit hlt
  have hcarry := carry_shl w v n f
  constructor
  · exact hvalue
  · exact beq_iff_eq
  · exact hsign
  · exact hcarry
  · have hoverflow : (shl w v n f).flags.overflow =
        if n = 1 then (shl w v n f).flags.sign != (shl w v n f).flags.carry
        else f.overflow := rfl
    rw [hoverflow, hsign, hcarry]
    by_cases hone : n = 1
    · subst hone
      have hle : 1 ≤ w.bits := w.bits_pos
      rw [if_pos rfl, UInt16.toNat_one, if_neg Nat.one_ne_zero, if_pos rfl, decide_eq_true hle,
        Bool.true_and]
      rfl
    · have hne : n.toNat ≠ 1 := fun h => hone (UInt16.toNat_inj.mp h)
      rw [if_neg hone, if_neg hne]

theorem shiftsRight_shr (hv : v.toNat < w.size) : (shr w v n f).ShiftsRight w v n.toNat := by
  have hvalue : (shr w v n f).value.toNat = v.toNat / 2 ^ n.toNat := toNat_shiftRight v n.toNat
  have hlt : (shr w v n f).value.toNat < w.size := by
    rw [hvalue]
    exact Nat.lt_of_le_of_lt (Nat.div_le_self _ _) hv
  constructor
  · exact hvalue
  · exact beq_iff_eq
  · exact Width.isNegative_eq_topBit hlt
  · exact carry_shr hv
  · exact Width.isNegative_eq_topBit hv

end Alu

namespace Machine

/-- Shifts are exact for every count.  The value is read from the destination at the width of
the operation, the count from the source at the source's own width. -/
theorem shifts_exact (m : Machine) (dst src : Storage) :
    let w := Storage.operationWidth dst src
    let v := m.read dst w
    let n := (m.value src).toNat
    (∃ r : Alu.Result, m.Concludes (m.applyBinary .shl dst src) dst w r ∧
        r.ShiftsLeft w v n m.thread.flags) ∧
      ∃ r : Alu.Result, m.Concludes (m.applyBinary .shr dst src) dst w r ∧
        r.ShiftsRight w v n := by
  intro w v n
  have hv : v.toNat < w.size := m.read_lt dst w
  have hw : dst.Admits w := dst.admits_operationWidth src
  have hleft : (Alu.shl w v (m.value src) m.thread.flags).ShiftsLeft w v n m.thread.flags :=
    Alu.shiftsLeft_shl hv
  have hright : (Alu.shr w v (m.value src) m.thread.flags).ShiftsRight w v n :=
    Alu.shiftsRight_shr hv
  constructor
  · exact ⟨_, m.concludes_finish hw hleft.value_lt, hleft⟩
  · exact ⟨_, m.concludes_finish hw (hright.value_lt hv), hright⟩

/-- A byte moved up by eight is gone; carry is the last bit that has left it. -/
example :
    let m : Machine := ⟨{ ax := 0x0081, bx := 8 }, .empty, 1⟩
    (m.applyBinary .shl (.register .ax .low) (.register .bx .full)).machine.thread =
      { ax := 0, bx := 8, flags := { zero := true, carry := true } } := by
  decide +kernel

end Machine
end CoreWar
