import CoreWar.Assembly.Numeral
import CoreWar.Proofs.Text.Lines

/-!
# Decimal numbers are read back

The decimal digits of a number spell it.  Digits are neither blanks nor signs nor
the mark of another base, so nothing is taken off them before they are read.
-/

namespace CoreWar
namespace Assembly
namespace Numeral

/-! ## Digits -/

/-- The digits of a number are those that a printed number has. -/
theorem isDigit_of_mem_toDigits {n : Nat} {c : Char} (h : c ∈ Nat.toDigits 10 n) :
    c.isDigit = true :=
  Nat.isDigit_of_mem_toDigits (by decide) (by decide) h

theorem isBlank_of_isDigit {c : Char} (h : c.isDigit = true) : Text.isBlank c = false := by
  simp only [Char.isDigit, Bool.and_eq_true, decide_eq_true_eq, UInt32.le_iff_toNat_le] at h
  have hlow : 48 ≤ c.toNat := h.1
  have hhigh : c.toNat ≤ 57 := h.2
  simp only [Text.isBlank, Bool.or_eq_false_iff, Bool.and_eq_false_iff, decide_eq_false_iff_not,
    beq_eq_false_iff_ne]
  omega

theorem ne_of_isDigit {c d : Char} (hc : c.isDigit = true) (hd : d.isDigit = false) : c ≠ d := by
  rintro rfl
  rw [hc] at hd
  cases hd

theorem digit?_digitChar {d : Nat} (h : d < 10) : digit? 10 d.digitChar = some d := by
  have hall : ∀ k : Fin 10, digit? 10 k.val.digitChar = some k.val := by decide
  exact hall ⟨d, h⟩

theorem natural?_append {base n d : Nat} {cs : List Char} {c : Char} (hne : cs ≠ [])
    (hcs : natural? base cs = some n) (hc : digit? base c = some d) :
    natural? base (cs ++ [c]) = some (n * base + d) := by
  rw [natural?, if_neg (by simpa using hne)] at hcs
  rw [natural?, if_neg (by simp), List.foldlM_append, hcs]
  simp [hc]

/-- The last digit is read after the others, as it is printed. -/
theorem natural?_toDigits (n : Nat) : natural? 10 (Nat.toDigits 10 n) = some n := by
  induction n using Nat.strongRecOn with
  | _ n ih =>
      by_cases hsmall : n < 10
      · rw [Nat.toDigits_of_lt_base hsmall]
        simp [natural?, digit?_digitChar hsmall]
      · have hlast := digit?_digitChar (Nat.mod_lt n (by decide : 10 > 0))
        rw [Nat.toDigits_of_base_le (by decide) (by omega),
          natural?_append Nat.toDigits_ne_nil (ih (n / 10) (by omega)) hlast, Option.some.injEq]
        omega

/-! ## Numbers -/

/-- Digits without a sign are read as they stand. -/
theorem signed?_of_head?_ne {base : Nat} {cs : List Char} (hminus : cs.head? ≠ some '-')
    (hplus : cs.head? ≠ some '+') :
    signed? base cs = ((natural? base cs).map fun n => (n : Int)).filter fits := by
  unfold signed?
  split
  · exact absurd rfl hminus
  · exact absurd rfl hplus
  · rfl

theorem head?_ne_of_forall_isDigit {cs : List Char} (h : ∀ c ∈ cs, c.isDigit = true) {d : Char}
    (hd : d.isDigit = false) : cs.head? ≠ some d := fun hhead =>
  ne_of_isDigit (h d (List.mem_of_mem_head? hhead)) hd rfl

/-- Digits are decimal if nothing else is said. -/
theorem based?_of_forall_isDigit {cs : List Char} (h : ∀ c ∈ cs, c.isDigit = true) :
    based? cs = signed? 10 cs := by
  unfold based?
  split
  · exact absurd rfl (ne_of_isDigit (h 'x' (by simp)) (by decide))
  · exact absurd rfl (ne_of_isDigit (h 'X' (by simp)) (by decide))
  · rfl

theorem filter_fits {n : Nat} (h : n < 0x80000000) :
    (some (n : Int)).filter fits = some (n : Int) := by
  have hfits : fits n = true := by
    simp only [fits, decide_eq_true_eq]
    omega
  simp [Option.filter, hfits]

theorem based?_toDigits {n : Nat} (h : n < 0x80000000) :
    based? (Nat.toDigits 10 n) = some (n : Int) := by
  have hdigits : ∀ c ∈ Nat.toDigits 10 n, c.isDigit = true := fun c => isDigit_of_mem_toDigits
  rw [based?_of_forall_isDigit hdigits,
    signed?_of_head?_ne (head?_ne_of_forall_isDigit hdigits (by decide))
      (head?_ne_of_forall_isDigit hdigits (by decide)), natural?_toDigits]
  exact filter_fits h

/-- A text that does not begin with a minus sign is read as it stands. -/
theorem parseTrimmed_of_head?_ne {cs : List Char} (h : cs.head? ≠ some '-') :
    parseTrimmed cs = (based? cs).elim (invalid cs) .ok := by
  unfold parseTrimmed
  split
  · exact absurd rfl h
  · rfl

theorem parse_of_based? {cs : List Char} {x : Int} (htrim : Text.trim cs = cs)
    (hminus : cs.head? ≠ some '-') (h : based? cs = some x) : parse cs = .ok x := by
  rw [parse, htrim, parseTrimmed_of_head?_ne hminus, h, Option.elim_some]

/-- A minus sign stands before the mark of the base. -/
theorem parse_minus {cs : List Char} {x : Int} (htrim : Text.trim ('-' :: cs) = '-' :: cs)
    (h : based? cs = some x) : parse ('-' :: cs) = negate x := by
  rw [parse, htrim, parseTrimmed, h, Option.elim_some]

theorem parse_toDigits {n : Nat} (h : n < 0x80000000) : parse (Nat.toDigits 10 n) = .ok n := by
  have hdigits : ∀ c ∈ Nat.toDigits 10 n, c.isDigit = true := fun c => isDigit_of_mem_toDigits
  exact parse_of_based? (Text.trim_of_forall fun c hc => isBlank_of_isDigit (hdigits c hc))
    (head?_ne_of_forall_isDigit hdigits (by decide)) (based?_toDigits h)

theorem negate_of_lt {n : Nat} (h : n < 0x80000000) : negate n = .ok (-(n : Int)) := by
  have hfits : fits (-(n : Int)) = true := by
    simp only [fits, decide_eq_true_eq]
    omega
  rw [negate, if_pos hfits]

theorem parse_minus_toDigits {n : Nat} (h : n < 0x80000000) :
    parse ('-' :: Nat.toDigits 10 n) = .ok (-(n : Int)) := by
  have hblank : ∀ c ∈ '-' :: Nat.toDigits 10 n, Text.isBlank c = false := by
    rw [List.forall_mem_cons]
    exact ⟨by decide, fun c hc => isBlank_of_isDigit (isDigit_of_mem_toDigits hc)⟩
  rw [parse_minus (Text.trim_of_forall hblank) (based?_toDigits h), negate_of_lt h]

theorem toByte_toNat (b : UInt8) : toByte (b.toNat : Int) = .ok b := by
  have hlt := b.toNat_lt
  have hsame : UInt8.ofInt b.toNat = b := by
    apply UInt8.toNat_inj.mp
    rw [UInt8.ofInt, UInt8.toNat_ofNat']
    omega
  rw [toByte, if_pos (by omega), hsame]

/-- The decimal digits of a byte spell the byte. -/
theorem toByte_parse_toDigits (b : UInt8) :
    (parse (Nat.toDigits 10 b.toNat) >>= toByte) = .ok b := by
  have hlt := b.toNat_lt
  rw [parse_toDigits (by omega)]
  exact toByte_toNat b

end Numeral
end Assembly
end CoreWar
