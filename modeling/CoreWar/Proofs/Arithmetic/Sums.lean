import CoreWar.Alu

/-!
# Sums and differences as exact numbers

A value at a width can be read as an unsigned and as a signed number, and one addition of
words serves both readings.  The result that is stored is the exact one modulo the number
of values of the width; carry and overflow tell that the exact result does not fit, carry
for the unsigned reading and overflow for the signed one.  `Alu.Result.Reports` says this
of a result.

A difference is formed as the sum with the negated value, which counts as having the
opposite sign.  Zero and the most negative value are their own negations, so it is not
obvious that their signs are counted right; they are (`reports_sub`).
-/

namespace CoreWar

/-! ## Values at a width -/

theorem Signedness.fits_unsigned_iff {size : Nat} {x : Int} :
    unsigned.fits size x = true ↔ 0 ≤ x ∧ x < size := by
  simp [fits]

theorem Signedness.fits_signed_iff {size : Nat} {x : Int} :
    signed.fits size x = true ↔ -size ≤ 2 * x ∧ 2 * x < size := by
  simp [fits]

namespace Width

/-- The signed number that a value at a width stands for. -/
def signed (w : Width) (v : UInt16) : Int := Signedness.signed.read w.size v.toNat

variable (w : Width) (v a b : UInt16)

theorem isNegative_iff : w.isNegative v = true ↔ w.size ≤ 2 * v.toNat := by
  cases w with
  | byte =>
      simp only [isNegative, signBit, size, decide_eq_true_eq, UInt16.le_iff_toNat_le,
        UInt16.reduceToNat]
      omega
  | word =>
      simp only [isNegative, signBit, size, decide_eq_true_eq, UInt16.le_iff_toNat_le,
        UInt16.reduceToNat]
      omega

theorem eq_signBit_iff : v = w.signBit ↔ 2 * v.toNat = w.size := by
  rw [← UInt16.toNat_inj]
  cases w with
  | byte =>
      simp only [signBit, size, UInt16.reduceToNat]
      omega
  | word =>
      simp only [signBit, size, UInt16.reduceToNat]
      omega

/-- There are as many values of the one sign as of the other. -/
theorem exists_two_mul : ∃ half, 0 < half ∧ w.size = 2 * half := by
  cases w with
  | byte => exact ⟨128, by decide, rfl⟩
  | word => exact ⟨32768, by decide, rfl⟩

theorem size_dvd : w.size ∣ UInt16.size := by
  cases w with
  | byte => exact ⟨256, rfl⟩
  | word => exact ⟨1, rfl⟩

/-- What an integer is modulo the number of values is a value. -/
theorem lt_size_of_eq_emod {n : Nat} {x : Int} (h : (n : Int) = x % w.size) : n < w.size := by
  obtain ⟨half, hpos, hhalf⟩ := w.exists_two_mul
  have hlt := Int.emod_lt_of_pos x (by omega : (0 : Int) < w.size)
  omega

theorem toNat_truncate_add : (w.truncate (a + b)).toNat = (a.toNat + b.toNat) % w.size := by
  rw [toNat_truncate, UInt16.toNat_add]
  exact Nat.mod_mod_of_dvd _ w.size_dvd

variable {v a b}

theorem signed_eq (h : v.toNat < w.size) :
    w.signed v = if 2 * v.toNat < w.size then (v.toNat : Int) else v.toNat - w.size := by
  have hv : (v.toNat : Int) % w.size = v.toNat := Int.emod_eq_of_lt (by omega) (by omega)
  rw [signed, Signedness.read, Int.bmod_def, hv]
  split <;> split <;> omega

theorem toNat_negate (h : v.toNat < w.size) :
    (w.negate v).toNat = if v.toNat = 0 then 0 else w.size - v.toNat := by
  have hlt := v.toNat_lt
  rw [negate, toNat_truncate, UInt16.toNat_neg]
  cases w with
  | byte =>
      simp only [size, UInt16.size] at h ⊢
      split <;> omega
  | word =>
      simp only [size, UInt16.size] at h ⊢
      split <;> omega

/-- A value and a negated one add up to the difference, raised by the number of values if
it is negative. -/
theorem toNat_add_negate_mod (ha : a.toNat < w.size) (hb : b.toNat < w.size) :
    (a.toNat + (w.negate b).toNat) % w.size =
      if a.toNat < b.toNat then a.toNat + w.size - b.toNat else a.toNat - b.toNat := by
  rw [w.toNat_negate hb]
  by_cases hzero : b.toNat = 0
  · rw [if_pos hzero, hzero, if_neg (Nat.not_lt_zero _), Nat.add_zero, Nat.mod_eq_of_lt ha,
      Nat.sub_zero]
  · rw [if_neg hzero]
    rcases Nat.lt_or_ge a.toNat b.toNat with hlt | hge
    · rw [if_pos hlt, Nat.mod_eq_of_lt (by omega)]
      omega
    · rw [if_neg (Nat.not_lt_of_ge hge), Nat.mod_eq_sub_mod (by omega),
        Nat.mod_eq_of_lt (by omega)]
      omega

end Width

namespace Alu

/-- A result at a width is that of an operation whose exact result is `u` for unsigned
values and `s` for signed ones. -/
structure Result.Reports (r : Result) (w : Width) (u s : Int) : Prop where
  value_eq : (r.value.toNat : Int) = u % w.size
  carry_iff : r.flags.carry = true ↔ Signedness.unsigned.fits w.size u = false
  overflow_iff : r.flags.overflow = true ↔ Signedness.signed.fits w.size s = false
  zero_iff : r.flags.zero = true ↔ r.value = 0
  sign_iff : r.flags.sign = true ↔ w.size ≤ 2 * r.value.toNat

variable {w : Width} {a b v : UInt16}

theorem toNat_sum (w : Width) (a b : UInt16) (bNegative : Bool) (carry : UInt16 → Bool) :
    (sum w a b bNegative carry).value.toNat = (a.toNat + b.toNat) % w.size :=
  w.toNat_truncate_add a b

theorem overflow_sum_iff (w : Width) (a b : UInt16) (bNegative : Bool) (carry : UInt16 → Bool) :
    (sum w a b bNegative carry).flags.overflow = true ↔
      (w.size ≤ 2 * a.toNat ↔ bNegative = true) ∧
        ¬(w.size ≤ 2 * ((a.toNat + b.toNat) % w.size) ↔ w.size ≤ 2 * a.toNat) := by
  rw [← w.toNat_truncate_add a b, ← w.isNegative_iff a, ← w.isNegative_iff,
    ← Bool.eq_iff_iff, ← Bool.eq_iff_iff]
  simp [sum]

/-- Zero and sign of a sum are those of its value, so a sum reports what its value, carry
and overflow do. -/
theorem reports_sum {bNegative : Bool} {carry : UInt16 → Bool} {u s : Int}
    (hvalue : (((a.toNat + b.toNat) % w.size : Nat) : Int) = u % w.size)
    (hcarry : carry (w.truncate (a + b)) = true ↔ Signedness.unsigned.fits w.size u = false)
    (hoverflow : (sum w a b bNegative carry).flags.overflow = true ↔
      Signedness.signed.fits w.size s = false) :
    (sum w a b bNegative carry).Reports w u s := by
  constructor
  · rw [toNat_sum, hvalue]
  · exact hcarry
  · exact hoverflow
  · exact beq_iff_eq
  · exact w.isNegative_iff _

theorem reports_add (ha : a.toNat < w.size) (hb : b.toNat < w.size) :
    (add w a b).Reports w (a.toNat + b.toNat) (w.signed a + w.signed b) := by
  obtain ⟨half, hpos, hhalf⟩ := w.exists_two_mul
  have hsum := w.toNat_truncate_add a b
  apply reports_sum
  · simp
  · rw [← Bool.not_eq_true, Signedness.fits_unsigned_iff, Bool.or_eq_true, decide_eq_true_eq,
      decide_eq_true_eq, UInt16.lt_iff_toNat_lt, UInt16.lt_iff_toNat_lt, hsum]
    rcases Nat.lt_or_ge (a.toNat + b.toNat) w.size with hlt | hge
    · rw [Nat.mod_eq_of_lt hlt]
      omega
    · rw [Nat.mod_eq_sub_mod hge, Nat.mod_eq_of_lt (by omega)]
      omega
  · rw [overflow_sum_iff, w.isNegative_iff, ← Bool.not_eq_true, Signedness.fits_signed_iff,
      w.signed_eq ha, w.signed_eq hb]
    rcases Nat.lt_or_ge (a.toNat + b.toNat) w.size with hlt | hge
    · rw [Nat.mod_eq_of_lt hlt]
      split <;> split <;> omega
    · rw [Nat.mod_eq_sub_mod hge, Nat.mod_eq_of_lt (by omega)]
      split <;> split <;> omega

theorem reports_sub (ha : a.toNat < w.size) (hb : b.toNat < w.size) :
    (sub w a b).Reports w (a.toNat - b.toNat) (w.signed a - w.signed b) := by
  obtain ⟨half, hpos, hhalf⟩ := w.exists_two_mul
  have hvalue := w.toNat_add_negate_mod ha hb
  apply reports_sum
  · rw [hvalue]
    rcases Nat.lt_or_ge a.toNat b.toNat with hlt | hge
    · rw [if_pos hlt, ← Int.add_emod_right, Int.emod_eq_of_lt (by omega) (by omega)]
      omega
    · rw [if_neg (Nat.not_lt_of_ge hge), Int.emod_eq_of_lt (by omega) (by omega)]
      omega
  · rw [← Bool.not_eq_true, Signedness.fits_unsigned_iff, decide_eq_true_eq,
      UInt16.lt_iff_toNat_lt]
    omega
  · rw [overflow_sum_iff, hvalue, Bool.not_eq_true', ← Bool.not_eq_true, w.isNegative_iff,
      ← Bool.not_eq_true, Signedness.fits_signed_iff, w.signed_eq ha, w.signed_eq hb]
    split <;> split <;> split <;> omega

theorem reports_neg (h : v.toNat < w.size) :
    (neg w v).Reports w (0 - v.toNat) (0 - w.signed v) := by
  obtain ⟨half, hpos, hhalf⟩ := w.exists_two_mul
  have hnegate := w.toNat_negate h
  have hzero : v = 0 ↔ v.toNat = 0 := UInt16.toNat_inj.symm
  constructor
  · change ((w.negate v).toNat : Int) = _
    rw [hnegate]
    split
    next hv => simp [hv]
    next hv =>
      rw [← Int.add_emod_right, Int.emod_eq_of_lt (by omega) (by omega)]
      omega
  · rw [← Bool.not_eq_true, Signedness.fits_unsigned_iff]
    change (v != 0) = true ↔ _
    rw [bne_iff_ne, ne_eq, hzero]
    omega
  · rw [← Bool.not_eq_true, Signedness.fits_signed_iff, w.signed_eq h]
    change (v == w.signBit) = true ↔ _
    rw [beq_iff_eq, w.eq_signBit_iff]
    split <;> omega
  · change (v == 0) = true ↔ w.negate v = 0
    rw [beq_iff_eq, hzero, ← UInt16.toNat_inj, hnegate, UInt16.toNat_zero]
    split <;> omega
  · exact w.isNegative_iff _

theorem Result.Reports.value_lt {r : Result} {u s : Int} (h : r.Reports w u s) :
    r.value.toNat < w.size :=
  w.lt_size_of_eq_emod h.value_eq

/-- What a result has to report determines it. -/
theorem Result.Reports.eq {r r' : Result} {u s : Int} (h : r.Reports w u s)
    (h' : r'.Reports w u s) : r = r' := by
  have hvalue : r.value = r'.value := by
    apply UInt16.toNat_inj.mp
    have heq := h.value_eq.trans h'.value_eq.symm
    omega
  obtain ⟨value, overflow, sign, zero, carry⟩ := r
  obtain ⟨value', overflow', sign', zero', carry'⟩ := r'
  obtain rfl : value = value' := hvalue
  have hoverflow : overflow = overflow' :=
    Bool.eq_iff_iff.mpr (h.overflow_iff.trans h'.overflow_iff.symm)
  have hsign : sign = sign' := Bool.eq_iff_iff.mpr (h.sign_iff.trans h'.sign_iff.symm)
  have hzero : zero = zero' := Bool.eq_iff_iff.mpr (h.zero_iff.trans h'.zero_iff.symm)
  have hcarry : carry = carry' := Bool.eq_iff_iff.mpr (h.carry_iff.trans h'.carry_iff.symm)
  rw [hoverflow, hsign, hzero, hcarry]

/-- Negation is subtraction from zero. -/
theorem neg_eq_sub (h : v.toNat < w.size) : neg w v = sub w 0 v := by
  have hzero : (0 : UInt16).toNat < w.size := Nat.zero_lt_of_lt h
  have hread : w.signed 0 = 0 := by
    rw [w.signed_eq hzero]
    simp
  have hsub := reports_sub hzero h
  rw [hread] at hsub
  exact (reports_neg h).eq hsub

end Alu
end CoreWar
