import CoreWar.Proofs.Text.Lines
import CoreWar.Text.Uppercase

/-!
# Text in capitals

The ASCII letters of a text as capitals, and everything else as it stands.  A
text is cut in the same places in either form, since no blank is a letter and no
text is cut at one.  The two forms have the same capital form in the wider sense
of `upper`, which knows the letters beyond ASCII too.
-/

namespace CoreWar
namespace Text

/-- A text with its ASCII letters as capitals. -/
def capitals (cs : List Char) : List Char := cs.map Char.toUpper

variable {cs : List Char} {s : Char}

/-! ## Characters -/

/-- A character is its own capital, or it is a small letter and its capital stands
thirty-two places before it. -/
theorem toUpper_cases (c : Char) :
    (c.toUpper = c ∧ ¬(97 ≤ c.toNat ∧ c.toNat ≤ 122)) ∨
      ((97 ≤ c.toNat ∧ c.toNat ≤ 122) ∧ c.toUpper.toNat = c.toNat - 32) := by
  unfold Char.toUpper
  split
  next h =>
    obtain ⟨hlow, hhigh⟩ : 97 ≤ c.toNat ∧ c.toNat ≤ 122 := h
    have hshift : ('A'.val - 'a'.val).toNat = 4294967264 := by decide
    refine .inr ⟨⟨hlow, hhigh⟩, ?_⟩
    show (c.val + ('A'.val - 'a'.val)).toNat = c.val.toNat - 32
    have hval : c.val.toNat = c.toNat := rfl
    rw [UInt32.toNat_add, hshift, hval]
    omega
  next h => exact .inl ⟨rfl, h⟩

theorem toUpper_toUpper (c : Char) : c.toUpper.toUpper = c.toUpper := by
  rcases toUpper_cases c with ⟨hc, -⟩ | ⟨hsmall, hcapital⟩
  · rw [hc, hc]
  · rcases toUpper_cases c.toUpper with ⟨hsame, -⟩ | ⟨hsmall', -⟩
    · exact hsame
    · omega

/-- Only a letter has another form. -/
theorem toUpper_eq_iff {c : Char} (hs : s.isAlpha = false) : c.toUpper = s ↔ c = s := by
  obtain ⟨hcapital, hsmall⟩ : s.isUpper = false ∧ s.isLower = false := Bool.or_eq_false_iff.mp hs
  have hcapital : ¬(65 ≤ s.toNat ∧ s.toNat ≤ 90) := of_decide_eq_false hcapital
  have hsmall : ¬(97 ≤ s.toNat ∧ s.toNat ≤ 122) := by
    rintro ⟨hlow, hhigh⟩
    obtain h | h := Bool.and_eq_false_iff.mp hsmall
    · exact of_decide_eq_false h hlow
    · exact of_decide_eq_false h hhigh
  rcases toUpper_cases c with ⟨hc, -⟩ | ⟨hc, hupper⟩
  · rw [hc]
  · constructor
    · rintro rfl
      omega
    · rintro rfl
      exact absurd hc hsmall

theorem toUpper_eq_self (hs : s.isAlpha = false) : s.toUpper = s := (toUpper_eq_iff hs).mpr rfl

theorem isBlank_of_letter {c : Char} (hlow : 65 ≤ c.toNat) (hhigh : c.toNat ≤ 122) :
    isBlank c = false := by
  simp only [isBlank, Bool.or_eq_false_iff, Bool.and_eq_false_iff, decide_eq_false_iff_not,
    beq_eq_false_iff_ne]
  omega

theorem isBlank_toUpper (c : Char) : isBlank c.toUpper = isBlank c := by
  rcases toUpper_cases c with ⟨hc, -⟩ | ⟨⟨hlow, hhigh⟩, hupper⟩
  · rw [hc]
  · rw [isBlank_of_letter (by omega) hhigh, isBlank_of_letter (by omega) (by omega)]

theorem upperChar_toUpper (c : Char) : upperChar c.toUpper = upperChar c := by
  rcases toUpper_cases c with ⟨hc, -⟩ | ⟨hsmall, hcapital⟩
  · rw [hc]
  · rw [upperChar_ascii (by omega), upperChar_ascii (by omega), toUpper_toUpper]

/-! ## Texts -/

@[simp] theorem capitals_nil : capitals [] = [] := rfl

@[simp] theorem capitals_cons (c : Char) (cs : List Char) :
    capitals (c :: cs) = c.toUpper :: capitals cs := rfl

@[simp] theorem isEmpty_capitals (cs : List Char) : (capitals cs).isEmpty = cs.isEmpty :=
  List.isEmpty_map

@[simp] theorem capitals_capitals (cs : List Char) : capitals (capitals cs) = capitals cs := by
  rw [capitals, capitals, List.map_map]
  exact List.map_congr_left fun c _ => toUpper_toUpper c

theorem mem_capitals (hs : s.isAlpha = false) : s ∈ capitals cs ↔ s ∈ cs := by
  simp only [capitals, List.mem_map, toUpper_eq_iff hs, exists_eq_right]

theorem head?_ne_of_forall_ne_cons (h : ∀ rest, cs = s :: rest → False) : cs.head? ≠ some s := by
  intro hhead
  obtain ⟨rest, hcs⟩ := List.head?_eq_some_iff.mp hhead
  exact h rest hcs

theorem head?_capitals_eq_some (hs : s.isAlpha = false) :
    (capitals cs).head? = some s ↔ cs.head? = some s := by
  cases cs with
  | nil => simp
  | cons c cs => simp [toUpper_eq_iff hs]

theorem getLast?_capitals_eq_some (hs : s.isAlpha = false) :
    (capitals cs).getLast? = some s ↔ cs.getLast? = some s := by
  rw [capitals, List.getLast?_map]
  cases cs.getLast? with
  | none => simp
  | some c => simp [toUpper_eq_iff hs]

theorem takeWhile_capitals {keep : Char → Bool} (h : ∀ c, keep c.toUpper = keep c)
    (cs : List Char) : (capitals cs).takeWhile keep = capitals (cs.takeWhile keep) := by
  rw [capitals, List.takeWhile_map, Function.comp_def, funext h, capitals]

theorem dropWhile_capitals {keep : Char → Bool} (h : ∀ c, keep c.toUpper = keep c)
    (cs : List Char) : (capitals cs).dropWhile keep = capitals (cs.dropWhile keep) := by
  rw [capitals, List.dropWhile_map, Function.comp_def, funext h, capitals]

theorem decide_toUpper_ne (hs : s.isAlpha = false) (c : Char) :
    decide (c.toUpper ≠ s) = decide (c ≠ s) := by
  simp only [ne_eq, toUpper_eq_iff hs]

theorem takeWhile_ne_capitals (hs : s.isAlpha = false) (cs : List Char) :
    (capitals cs).takeWhile (· ≠ s) = capitals (cs.takeWhile (· ≠ s)) :=
  takeWhile_capitals (decide_toUpper_ne hs) cs

theorem dropWhile_ne_capitals (hs : s.isAlpha = false) (cs : List Char) :
    (capitals cs).dropWhile (· ≠ s) = capitals (cs.dropWhile (· ≠ s)) :=
  dropWhile_capitals (decide_toUpper_ne hs) cs

theorem tail_capitals (cs : List Char) : (capitals cs).tail = capitals cs.tail := List.map_tail.symm

theorem take_capitals (n : Nat) (cs : List Char) :
    (capitals cs).take n = capitals (cs.take n) := List.map_take.symm

theorem drop_capitals (n : Nat) (cs : List Char) :
    (capitals cs).drop n = capitals (cs.drop n) := List.map_drop.symm

theorem reverse_capitals (cs : List Char) : (capitals cs).reverse = capitals cs.reverse :=
  List.map_reverse.symm

theorem trim_capitals (cs : List Char) : trim (capitals cs) = capitals (trim cs) := by
  simp only [trim, dropWhile_capitals isBlank_toUpper, reverse_capitals]

theorem split_capitals (hs : s.isAlpha = false) (cs : List Char) :
    split s (capitals cs) = (split s cs).map capitals := by
  induction cs with
  | nil => rfl
  | cons c cs ih =>
      rw [capitals_cons]
      by_cases hc : c = s
      · rw [(toUpper_eq_iff hs).mpr hc, hc, split_cons_self, split_cons_self, ih, List.map_cons,
          capitals_nil]
      · obtain ⟨p, ps, hcs⟩ := exists_split_eq_cons s cs
        rw [hcs, List.map_cons] at ih
        rw [split_cons_of_ne hc hcs, List.map_cons, capitals_cons,
          split_cons_of_ne (fun hs' => hc ((toUpper_eq_iff hs).mp hs')) ih]

/-- A text and its capitals have the same capital form. -/
theorem upper_capitals (cs : List Char) : upper (capitals cs) = upper cs := by
  rw [upper, upper, capitals, List.flatMap_map, funext upperChar_toUpper]

end Text
end CoreWar
