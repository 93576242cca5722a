import CoreWar.Proofs.Machine.Readback

/-!
# Counting up and down

Increment and decrement are exact modulo the number of values and keep carry.  Without carry
to tell that the unsigned count has wrapped, overflow does so; it also tells, as everywhere
else, that the signed result does not fit.  So there are two values at which either of them
sets overflow, where the unsigned count wraps and where the sign changes without passing
zero, and no other (`increments_exact`).
-/

namespace CoreWar
namespace Alu

variable {w : Width} {v : UInt16} {f : Flags}

/-- A result is that of a step by one to the exact number `u`, for unsigned values, and `s`,
for signed ones, from a thread with the flags `f`. -/
structure Result.Counts (r : Result) (w : Width) (u s : Int) (f : Flags) : Prop where
  value_eq : (r.value.toNat : Int) = u % w.size
  zero_iff : r.flags.zero = true ↔ r.value = 0
  sign_iff : r.flags.sign = true ↔ w.size ≤ 2 * r.value.toNat
  carry_eq : r.flags.carry = f.carry
  overflow_iff : r.flags.overflow = true ↔
    Signedness.unsigned.fits w.size u = false ∨ Signedness.signed.fits w.size s = false

theorem Result.Counts.value_lt {r : Result} {u s : Int} (h : r.Counts w u s f) :
    r.value.toNat < w.size :=
  w.lt_size_of_eq_emod h.value_eq

/-! ## Where a step leaves the values -/

theorem unsigned_fits_succ_iff (hv : v.toNat < w.size) :
    Signedness.unsigned.fits w.size (v.toNat + 1) = false ↔ v.toNat + 1 = w.size := by
  rw [← Bool.not_eq_true, Signedness.fits_unsigned_iff]
  omega

theorem signed_fits_succ_iff (hv : v.toNat < w.size) :
    Signedness.signed.fits w.size (w.signed v + 1) = false ↔ 2 * (v.toNat + 1) = w.size := by
  obtain ⟨half, hpos, hhalf⟩ := w.exists_two_mul
  rw [← Bool.not_eq_true, Signedness.fits_signed_iff, w.signed_eq hv]
  split <;> omega

theorem unsigned_fits_pred_iff (hv : v.toNat < w.size) :
    Signedness.unsigned.fits w.size (v.toNat - 1) = false ↔ v.toNat = 0 := by
  rw [← Bool.not_eq_true, Signedness.fits_unsigned_iff]
  omega

theorem signed_fits_pred_iff (hv : v.toNat < w.size) :
    Signedness.signed.fits w.size (w.signed v - 1) = false ↔ 2 * v.toNat = w.size := by
  obtain ⟨half, hpos, hhalf⟩ := w.exists_two_mul
  rw [← Bool.not_eq_true, Signedness.fits_signed_iff, w.signed_eq hv]
  split <;> omega

/-! ## Results -/

theorem toNat_truncate_pred (w : Width) (v : UInt16) :
    ((w.truncate (v - 1)).toNat : Int) = (v.toNat - 1) % w.size := by
  have hsub : (v - 1).toNat = (65535 + v.toNat) % UInt16.size := UInt16.toNat_sub v 1
  rw [Width.toNat_truncate, hsub, Nat.mod_mod_of_dvd _ w.size_dvd]
  cases w with
  | byte =>
      simp only [Width.size]
      omega
  | word =>
      simp only [Width.size]
      omega

theorem counts_inc (hv : v.toNat < w.size) :
    (inc w v f).Counts w (v.toNat + 1) (w.signed v + 1) f := by
  have hvalue : (inc w v f).value.toNat = (v.toNat + 1) % w.size := w.toNat_truncate_add v 1
  have hoverflow : (inc w v f).flags.overflow =
      ((inc w v f).value == 0 || (inc w v f).value == w.signBit) := rfl
  constructor
  · rw [hvalue]
    rfl
  · exact beq_iff_eq
  · exact w.isNegative_iff _
  · rfl
  · rw [unsigned_fits_succ_iff hv, signed_fits_succ_iff hv, hoverflow, Bool.or_eq_true,
      beq_iff_eq, beq_iff_eq, w.eq_signBit_iff, ← UInt16.toNat_inj, hvalue, UInt16.toNat_zero]
    rcases Nat.lt_or_ge (v.toNat + 1) w.size with hlt | hge
    · rw [Nat.mod_eq_of_lt hlt]
      omega
    · have heq : v.toNat + 1 = w.size := by omega
      rw [heq, Nat.mod_self]
      omega

theorem counts_dec (hv : v.toNat < w.size) :
    (dec w v f).Counts w (v.toNat - 1) (w.signed v - 1) f := by
  have hvalue : ((dec w v f).value.toNat : Int) = (v.toNat - 1) % w.size :=
    toNat_truncate_pred w v
  have hoverflow : (dec w v f).flags.overflow = (v == 0 || v == w.signBit) := rfl
  constructor
  · exact hvalue
  · exact beq_iff_eq
  · exact w.isNegative_iff _
  · rfl
  · rw [unsigned_fits_pred_iff hv, signed_fits_pred_iff hv, hoverflow, Bool.or_eq_true,
      beq_iff_eq, beq_iff_eq, w.eq_signBit_iff, ← UInt16.toNat_inj, UInt16.toNat_zero]

end Alu

namespace Machine

/-- Increment and decrement are exact modulo the number of values and keep carry.  Overflow
is set at two values only: an increment sets it where the unsigned count wraps and where it
arrives at the lowest signed number, a decrement where it leaves either zero or the lowest
signed number. -/
theorem increments_exact (m : Machine) {dst : Storage} (hdst : dst.isReadOnly = false) :
    let w := dst.width
    let v := m.value dst
    let f := m.thread.flags
    (∃ r : Alu.Result, m.Delivers (m.applyUnary .inc dst) dst w r ∧
        r.Counts w (v.toNat + 1) (w.signed v + 1) f ∧
        (r.flags.overflow = true ↔ v.toNat + 1 = w.size ∨ 2 * (v.toNat + 1) = w.size)) ∧
      ∃ r : Alu.Result, m.Delivers (m.applyUnary .dec dst) dst w r ∧
        r.Counts w (v.toNat - 1) (w.signed v - 1) f ∧
        (r.flags.overflow = true ↔ v.toNat = 0 ∨ 2 * v.toNat = w.size) := by
  intro w v f
  have hv : v.toNat < w.size := m.read_lt dst w
  have hinc : (Alu.inc w v f).Counts w (v.toNat + 1) (w.signed v + 1) f := Alu.counts_inc hv
  have hdec : (Alu.dec w v f).Counts w (v.toNat - 1) (w.signed v - 1) f := Alu.counts_dec hv
  constructor
  · refine ⟨_, m.delivers_finish hdst dst.admits_width hinc.value_lt, hinc, ?_⟩
    rw [hinc.overflow_iff, Alu.unsigned_fits_succ_iff hv, Alu.signed_fits_succ_iff hv]
  · refine ⟨_, m.delivers_finish hdst dst.admits_width hdec.value_lt, hdec, ?_⟩
    rw [hdec.overflow_iff, Alu.unsigned_fits_pred_iff hv, Alu.signed_fits_pred_iff hv]

/-- A thread with the highest signed byte in `al` and the lowest in `bl`. -/
def signedExtremes : Machine where
  thread := { ax := 0x007F, bx := 0x0080, flags := { carry := true } }
  arena := .empty
  pid := 1

/-- Between the signed extremes overflow is set in both directions, and carry is kept. -/
theorem increments_exact_signedExtremes :
    (Storage.register .ax .low).isReadOnly = false ∧
      (Storage.register .bx .low).isReadOnly = false ∧
      (∃ r : Alu.Result,
        signedExtremes.Delivers (signedExtremes.applyUnary .inc (.register .ax .low))
          (.register .ax .low) .byte r ∧
        r.Counts .byte 128 128 { carry := true } ∧ r.flags.overflow = true) ∧
      ∃ r : Alu.Result,
        signedExtremes.Delivers (signedExtremes.applyUnary .dec (.register .bx .low))
          (.register .bx .low) .byte r ∧
        r.Counts .byte 127 (-129) { carry := true } ∧ r.flags.overflow = true := by
  have hal : (Storage.register .ax .low).isReadOnly = false := rfl
  have hbl : (Storage.register .bx .low).isReadOnly = false := rfl
  have halValue : signedExtremes.value (.register .ax .low) = 0x7F := by decide +kernel
  have hblValue : signedExtremes.value (.register .bx .low) = 0x80 := by decide +kernel
  have halWidth : (Storage.register .ax .low).width = .byte := rfl
  have hblWidth : (Storage.register .bx .low).width = .byte := rfl
  have hhighest : Width.byte.signed 0x7F = 127 := by decide +kernel
  have hlowest : Width.byte.signed 0x80 = -128 := by decide +kernel
  obtain ⟨⟨r, hr, hup, hover⟩, -⟩ := increments_exact signedExtremes hal
  obtain ⟨-, q, hq, hdown, hunder⟩ := increments_exact signedExtremes hbl
  rw [halWidth, halValue, hhighest] at hup
  rw [hblWidth, hblValue, hlowest] at hdown
  rw [halWidth, halValue] at hover
  rw [hblWidth, hblValue] at hunder
  exact ⟨hal, hbl, ⟨r, hr, hup, hover.mpr (.inr rfl)⟩, q, hq, hdown, hunder.mpr (.inr rfl)⟩

/-- Overflow does not tell of the unsigned count alone: it is not only where an increment
arrives at zero, and not only where a decrement leaves it. -/
theorem overflow_not_only_unsigned :
    (¬∀ (m : Machine) (dst : Storage), dst.isReadOnly = false →
      ((m.applyUnary .inc dst).machine.thread.flags.overflow = true ↔
        (m.value dst).toNat + 1 = dst.width.size)) ∧
      ¬∀ (m : Machine) (dst : Storage), dst.isReadOnly = false →
        ((m.applyUnary .dec dst).machine.thread.flags.overflow = true ↔
          (m.value dst).toNat = 0) := by
  constructor
  · intro h
    exact absurd (h signedExtremes (.register .ax .low) rfl) (by decide +kernel)
  · intro h
    exact absurd (h signedExtremes (.register .bx .low) rfl) (by decide +kernel)

end Machine
end CoreWar
