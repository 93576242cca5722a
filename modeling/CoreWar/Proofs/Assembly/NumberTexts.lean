import CoreWar.Assembly
import CoreWar.Proofs.Assembly.Numerals
import Mathlib.Data.List.Induction

/-!
# Which texts are numbers

The grammar of numbers, apart from the functions that read them: a minus sign or none, the mark of
base sixteen or none, and digits whose value fits thirty-one bits.  The reader accepts all of these
texts and gives the integers that they denote.

It also accepts texts outside the grammar.  Behind the minus sign and the mark the digits may have
a sign of their own, which makes room for a plus sign and for a second minus sign.  These are the
only other texts that are read, so the grammar describes the reader on every text without such a
sign and on no text that is read with one (`reads_grammar_iff`).  A second minus sign also makes
room for the negative of the one number that has none in thirty-two bits: there the reader neither
reads nor refuses the text, it overflows.
-/

namespace CoreWar
namespace Assembly
namespace Numeral

/-! ## The grammar -/

/-- The digits in the order of their values, with small letters. -/
def smallDigits : List Char := "0123456789abcdef".toList

/-- The digits in the order of their values, with capital letters. -/
def capitalDigits : List Char := "0123456789ABCDEF".toList

/-- A character is the digit with a value, to a base of at most sixteen. -/
def IsDigit (base : Nat) (c : Char) (d : Nat) : Prop :=
  d < base ∧ (smallDigits[d]? = some c ∨ capitalDigits[d]? = some c)

/-- One or more digits are the numeral of a number, the most significant digit first. -/
inductive IsNumeral (base : Nat) : List Char → Nat → Prop
  | digit {c : Char} {d : Nat} (hc : IsDigit base c d) : IsNumeral base [c] d
  | append {cs : List Char} {c : Char} {n d : Nat} (hcs : IsNumeral base cs n)
      (hc : IsDigit base c d) : IsNumeral base (cs ++ [c]) (n * base + d)

/-- The mark of a base. -/
inductive IsMark : List Char → Nat → Prop
  | decimal : IsMark [] 10
  | small : IsMark ['0', 'x'] 16
  | capital : IsMark ['0', 'X'] 16

/-- The sign in front of a number, and the factor that it stands for. -/
inductive IsSign : List Char → Int → Prop
  | none : IsSign [] 1
  | minus : IsSign ['-'] (-1)

/-- The numbers of the grammar and the integers that they denote. -/
inductive Regular : List Char → Int → Prop
  | intro {sign mark digits : List Char} {s : Int} {base n : Nat} (hsign : IsSign sign s)
      (hmark : IsMark mark base) (hdigits : IsNumeral base digits n) (hfits : n ≤ 0x7FFFFFFF) :
      Regular (sign ++ (mark ++ digits)) (s * n)

/-- The texts outside the grammar that are read all the same, and what they are read as: right
before the digits stands a sign that is not the minus sign at the beginning. -/
inductive Oversigned : List Char → Int → Prop
  | plus {sign mark digits : List Char} {s : Int} {base n : Nat} (hsign : IsSign sign s)
      (hmark : IsMark mark base) (hdigits : IsNumeral base digits n) (hfits : n ≤ 0x7FFFFFFF) :
      Oversigned (sign ++ (mark ++ '+' :: digits)) (s * n)
  | minus {sign mark digits : List Char} {s : Int} {base n : Nat} (hsign : IsSign sign s)
      (hmark : IsMark mark base) (hsecond : sign ++ mark ≠ []) (hdigits : IsNumeral base digits n)
      (hfits : n ≤ 0x80000000) (hopposite : s * -n ≤ 0x7FFFFFFF) :
      Oversigned (sign ++ (mark ++ '-' :: digits)) (s * -n)

/-- A minus sign, and the digits of the least number of thirty-two bits with a minus sign of their
own.  The negative of that number does not fit. -/
def NegatesLeast (text : List Char) : Prop :=
  ∃ mark base digits, IsMark mark base ∧ IsNumeral base digits 0x80000000 ∧
    text = '-' :: (mark ++ '-' :: digits)

/-! ## Digits -/

section Digits

variable {base n d : Nat} {c : Char} {cs : List Char}

/-- Characters that follow one another are digits that do. -/
theorem getElem?_of_run {digits : List Char} (first count offset : Nat)
    (hrun : ∀ k : Fin count, digits[k.val + offset]? = some (Char.ofNat (first + k)))
    (hlow : first ≤ c.toNat) (hhigh : c.toNat < first + count) :
    digits[c.toNat - first + offset]? = some c := by
  have hdigit := hrun ⟨c.toNat - first, by omega⟩
  rwa [Nat.add_sub_cancel' hlow, Char.ofNat_toNat] at hdigit

theorem digit?_eq_some_iff : digit? base c = some d ↔ IsDigit base c d := by
  constructor
  · intro h
    simp only [digit?, Option.filter_eq_some_iff, decide_eq_true_eq] at h
    obtain ⟨hvalue, hlt⟩ := h
    refine ⟨hlt, ?_⟩
    split at hvalue
    next hc =>
      obtain ⟨hlow, hhigh⟩ : 48 ≤ c.toNat ∧ c.toNat ≤ 57 := hc
      obtain rfl := Option.some.inj hvalue
      exact .inl (getElem?_of_run 48 10 0 (by decide) hlow (by omega))
    next =>
      split at hvalue
      next hc =>
        obtain ⟨hlow, hhigh⟩ : 97 ≤ c.toNat ∧ c.toNat ≤ 102 := hc
        obtain rfl := Option.some.inj hvalue
        exact .inl (getElem?_of_run 97 6 10 (by decide) hlow (by omega))
      next =>
        split at hvalue
        next hc =>
          obtain ⟨hlow, hhigh⟩ : 65 ≤ c.toNat ∧ c.toNat ≤ 70 := hc
          obtain rfl := Option.some.inj hvalue
          exact .inr (getElem?_of_run 65 6 10 (by decide) hlow (by omega))
        next => cases hvalue
  · rintro ⟨hlt, hc⟩
    have hall : ∀ k : Fin 16, smallDigits[k.val]?.bind (digit? 16) = some k.val ∧
        capitalDigits[k.val]?.bind (digit? 16) = some k.val := by decide
    have hbound : d < 16 := by
      rcases hc with hc | hc
      · exact (List.getElem?_eq_some_iff.mp hc).1
      · exact (List.getElem?_eq_some_iff.mp hc).1
    obtain ⟨hsmall, hcapital⟩ := hall ⟨d, hbound⟩
    have hvalue : digit? 16 c = some d := by
      rcases hc with hc | hc
      · rwa [hc] at hsmall
      · rwa [hc] at hcapital
    simp only [digit?, Option.filter_eq_some_iff, decide_eq_true_eq] at hvalue ⊢
    exact ⟨hvalue.1, hlt⟩

/-- What is no digit to base sixteen does not occur in a numeral. -/
theorem IsNumeral.not_mem (h : IsNumeral base cs n) (hc : c ∉ smallDigits ++ capitalDigits) :
    c ∉ cs := by
  have hdigit : ∀ {c' d}, IsDigit base c' d → c ≠ c' := by
    rintro c' d ⟨-, hsmall | hcapital⟩ rfl
    · exact hc (List.mem_append_left _ (List.mem_of_getElem? hsmall))
    · exact hc (List.mem_append_right _ (List.mem_of_getElem? hcapital))
  induction h with
  | digit hlast =>
      rw [List.mem_singleton]
      exact hdigit hlast
  | append _ hlast ih =>
      rw [List.mem_append, List.mem_singleton, not_or]
      exact ⟨ih, hdigit hlast⟩

theorem IsNumeral.ne_nil (h : IsNumeral base cs n) : cs ≠ [] := by
  cases h with
  | digit => exact List.cons_ne_nil _ _
  | append => exact List.append_ne_nil_of_right_ne_nil _ (List.cons_ne_nil _ _)

theorem natural?_singleton (base : Nat) (c : Char) : natural? base [c] = digit? base c := by
  simp [natural?]

theorem natural?_concat (hne : cs ≠ []) :
    natural? base (cs ++ [c]) =
      (natural? base cs).bind fun n => (digit? base c).map fun d => n * base + d := by
  rw [natural?, natural?, if_neg (by simp), if_neg (by simp [hne]), List.foldlM_append]
  simp

theorem natural?_eq_some_iff : natural? base cs = some n ↔ IsNumeral base cs n := by
  constructor
  · intro h
    induction cs using List.reverseRecOn generalizing n with
    | nil => cases h
    | append_singleton cs c ih =>
        by_cases hne : cs = []
        · subst hne
          rw [List.nil_append, natural?_singleton] at h
          exact .digit (digit?_eq_some_iff.mp h)
        · rw [natural?_concat hne] at h
          obtain ⟨m, hm, h⟩ := Option.bind_eq_some_iff.mp h
          obtain ⟨d, hd, rfl⟩ := Option.map_eq_some_iff.mp h
          exact .append (ih hm) (digit?_eq_some_iff.mp hd)
  · intro h
    induction h with
    | digit hc => rw [natural?_singleton, digit?_eq_some_iff.mpr hc]
    | append hcs hc ih => exact natural?_append hcs.ne_nil ih (digit?_eq_some_iff.mpr hc)

end Digits

/-! ## Signs and marks -/

section Signs

variable {base n : Nat} {x y : Int} {mark rest text : List Char}

/-- Digits with or without a sign of their own, and the number that they stand for. -/
inductive IsSigned (base : Nat) : List Char → Int → Prop
  | bare {cs : List Char} {n : Nat} (hdigits : IsNumeral base cs n) (hfits : n ≤ 0x7FFFFFFF) :
      IsSigned base cs n
  | plus {cs : List Char} {n : Nat} (hdigits : IsNumeral base cs n) (hfits : n ≤ 0x7FFFFFFF) :
      IsSigned base ('+' :: cs) n
  | minus {cs : List Char} {n : Nat} (hdigits : IsNumeral base cs n) (hfits : n ≤ 0x80000000) :
      IsSigned base ('-' :: cs) (-n)

theorem fits_iff : fits x = true ↔ -0x80000000 ≤ x ∧ x < 0x80000000 := decide_eq_true_iff

/-- The value of the digits as an integer. -/
theorem cast_natural?_eq_some_iff :
    (natural? base rest >>= fun n => some (n : Int)) = some x ↔
      ∃ n : Nat, IsNumeral base rest n ∧ x = n := by
  simp only [Option.bind_eq_bind, Option.bind_eq_some_iff, natural?_eq_some_iff, Option.some_inj,
    eq_comm (a := x)]

theorem signed?_eq_some_iff : signed? base rest = some x ↔ IsSigned base rest x := by
  constructor
  · intro h
    simp only [signed?, Option.filter_eq_some_iff, fits_iff] at h
    obtain ⟨hvalue, hlow, hhigh⟩ := h
    split at hvalue
    next cs =>
      obtain ⟨m, hm, rfl⟩ := Option.map_eq_some_iff.mp hvalue
      obtain ⟨n, hn, rfl⟩ := cast_natural?_eq_some_iff.mp hm
      exact .minus hn (by omega)
    next cs =>
      obtain ⟨m, hm, rfl⟩ := Option.map_eq_some_iff.mp hvalue
      obtain ⟨n, hn, rfl⟩ := cast_natural?_eq_some_iff.mp hm
      exact .plus hn (by omega)
    next =>
      obtain ⟨m, hm, rfl⟩ := Option.map_eq_some_iff.mp hvalue
      obtain ⟨n, hn, rfl⟩ := cast_natural?_eq_some_iff.mp hm
      exact .bare hn (by omega)
  · intro h
    rcases h with ⟨hdigits, hfits⟩ | ⟨hdigits, hfits⟩ | ⟨hdigits, hfits⟩
    · have hhead : ∀ c ∉ smallDigits ++ capitalDigits, rest.head? ≠ some c := fun c hc h =>
        hdigits.not_mem hc (List.mem_of_mem_head? h)
      rw [signed?_of_head?_ne (hhead '-' (by decide)) (hhead '+' (by decide)),
        natural?_eq_some_iff.mpr hdigits]
      exact filter_fits (by omega)
    · rw [signed?, natural?_eq_some_iff.mpr hdigits]
      exact filter_fits (by omega)
    · rw [signed?, natural?_eq_some_iff.mpr hdigits, Option.filter_eq_some_iff, fits_iff]
      exact ⟨rfl, by omega, by omega⟩

theorem IsSigned.not_mem (h : IsSigned base rest x) {c : Char}
    (hc : c ∉ '+' :: '-' :: (smallDigits ++ capitalDigits)) : c ∉ rest := by
  simp only [List.mem_cons, not_or] at hc
  obtain ⟨hplus, hminus, hdigit⟩ := hc
  rcases h with ⟨hdigits, -⟩ | ⟨hdigits, -⟩ | ⟨hdigits, -⟩
  · exact hdigits.not_mem hdigit
  · exact List.not_mem_cons_of_ne_of_not_mem hplus (hdigits.not_mem hdigit)
  · exact List.not_mem_cons_of_ne_of_not_mem hminus (hdigits.not_mem hdigit)

theorem based?_eq_some_iff :
    based? text = some x ↔
      ∃ mark rest base, text = mark ++ rest ∧ IsMark mark base ∧ IsSigned base rest x := by
  constructor
  · intro h
    unfold based? at h
    split at h
    next cs => exact ⟨['0', 'x'], cs, 16, rfl, .small, signed?_eq_some_iff.mp h⟩
    next cs => exact ⟨['0', 'X'], cs, 16, rfl, .capital, signed?_eq_some_iff.mp h⟩
    next => exact ⟨[], text, 10, rfl, .decimal, signed?_eq_some_iff.mp h⟩
  · rintro ⟨mark, rest, base, rfl, hmark, hrest⟩
    rcases hmark with _ | _ | _
    · -- Without a mark the letter of a mark cannot stand at its place.
      have hsmall : 'x' ∉ rest := hrest.not_mem (by decide)
      have hcapital : 'X' ∉ rest := hrest.not_mem (by decide)
      rw [List.nil_append]
      unfold based?
      split
      next => exact absurd (by simp) hsmall
      next => exact absurd (by simp) hcapital
      next => exact signed?_eq_some_iff.mpr hrest
    · exact signed?_eq_some_iff.mpr hrest
    · exact signed?_eq_some_iff.mpr hrest

/-! ## The reader -/

theorem negate_eq_ok_iff : negate x = .ok y ↔ fits (-x) = true ∧ -x = y := by
  unfold negate
  split
  next h => rw [Except.ok.injEq, and_iff_right h]
  next h => exact iff_of_false (by simp) fun hfits => h hfits.1

theorem negate_eq_overflow_iff : negate x = .error .overflow ↔ ¬fits (-x) = true := by
  unfold negate
  split
  next h => exact iff_of_false (by simp) fun hfits => hfits h
  next h => exact iff_of_true rfl h

/-- A text is read as what its digits stand for. -/
theorem elim_invalid_eq_ok_iff {value? : Option Int} {f : Int → Except (Stop Cause) Int} :
    value?.elim (invalid text) f = .ok x ↔ ∃ y, value? = some y ∧ f y = .ok x := by
  cases value? with
  | none => simp [invalid]
  | some y => simp

theorem elim_invalid_eq_overflow_iff {value? : Option Int} {f : Int → Except (Stop Cause) Int} :
    value?.elim (invalid text) f = .error .overflow ↔
      ∃ y, value? = some y ∧ f y = .error .overflow := by
  cases value? with
  | none => simp [invalid]
  | some y => simp

/-- A minus sign, then the number of what is left. -/
theorem parseTrimmed_cons_minus_eq_ok_iff :
    parseTrimmed ('-' :: rest) = .ok x ↔ ∃ y, based? rest = some y ∧ fits (-y) = true ∧ -y = x := by
  rw [parseTrimmed, elim_invalid_eq_ok_iff]
  simp only [negate_eq_ok_iff]

theorem parseTrimmed_eq_ok_iff_of_head?_ne (h : text.head? ≠ some '-') :
    parseTrimmed text = .ok x ↔ based? text = some x := by
  rw [parseTrimmed_of_head?_ne h, elim_invalid_eq_ok_iff]
  simp

theorem IsMark.head?_ne (h : IsMark mark base) (hrest : mark = [] → rest.head? ≠ some '-') :
    (mark ++ rest).head? ≠ some '-' := by
  rcases h with _ | _ | _
  · exact hrest rfl
  · exact fun h => absurd h (by simp)
  · exact fun h => absurd h (by simp)

theorem parseTrimmed_of_regular (h : Regular text x) : parseTrimmed text = .ok x := by
  obtain ⟨hsign, hmark, hdigits, hfits⟩ := h
  have hbased := based?_eq_some_iff.mpr ⟨_, _, _, rfl, hmark, .bare hdigits hfits⟩
  rcases hsign with _ | _
  · rw [List.nil_append, Int.one_mul, parseTrimmed_eq_ok_iff_of_head?_ne, hbased]
    refine hmark.head?_ne fun _ hminus => ?_
    exact hdigits.not_mem (by decide) (List.mem_of_mem_head? hminus)
  · refine parseTrimmed_cons_minus_eq_ok_iff.mpr ⟨_, hbased, ?_, (Int.neg_one_mul _).symm⟩
    exact fits_iff.mpr (by omega)

theorem parseTrimmed_of_oversigned (h : Oversigned text x) : parseTrimmed text = .ok x := by
  rcases h with ⟨hsign, hmark, hdigits, hfits⟩ |
    ⟨hsign, hmark, hsecond, hdigits, hfits, hopposite⟩
  · have hbased := based?_eq_some_iff.mpr ⟨_, _, _, rfl, hmark, .plus hdigits hfits⟩
    rcases hsign with _ | _
    · rw [List.nil_append, Int.one_mul, parseTrimmed_eq_ok_iff_of_head?_ne, hbased]
      exact hmark.head?_ne fun _ => by simp
    · refine parseTrimmed_cons_minus_eq_ok_iff.mpr ⟨_, hbased, ?_, (Int.neg_one_mul _).symm⟩
      exact fits_iff.mpr (by omega)
  · have hbased := based?_eq_some_iff.mpr ⟨_, _, _, rfl, hmark, .minus hdigits hfits⟩
    rcases hsign with _ | _
    · rw [List.nil_append, Int.one_mul, parseTrimmed_eq_ok_iff_of_head?_ne, hbased]
      exact hmark.head?_ne fun hnil => absurd hnil hsecond
    · refine parseTrimmed_cons_minus_eq_ok_iff.mpr ⟨_, hbased, ?_, (Int.neg_one_mul _).symm⟩
      exact fits_iff.mpr (by omega)

theorem parseTrimmed_eq_ok_iff :
    parseTrimmed text = .ok x ↔ Regular text x ∨ Oversigned text x := by
  constructor
  · intro h
    by_cases hminus : text.head? = some '-'
    · obtain ⟨cs, rfl⟩ := List.head?_eq_some_iff.mp hminus
      obtain ⟨y, hy, hopposite, rfl⟩ := parseTrimmed_cons_minus_eq_ok_iff.mp h
      obtain ⟨mark, rest, base, rfl, hmark, hrest⟩ := based?_eq_some_iff.mp hy
      have hhigh := (fits_iff.mp hopposite).2
      rw [← Int.neg_one_mul]
      rcases hrest with ⟨hdigits, hfits⟩ | ⟨hdigits, hfits⟩ | ⟨hdigits, hfits⟩
      · exact .inl (.intro .minus hmark hdigits hfits)
      · exact .inr (.plus .minus hmark hdigits hfits)
      · exact .inr (.minus .minus hmark (by simp) hdigits hfits (by omega))
    · rw [parseTrimmed_eq_ok_iff_of_head?_ne hminus] at h
      obtain ⟨mark, rest, base, rfl, hmark, hrest⟩ := based?_eq_some_iff.mp h
      rcases hrest with ⟨hdigits, hfits⟩ | ⟨hdigits, hfits⟩ | ⟨hdigits, hfits⟩
      · rw [← Int.one_mul (Nat.cast _)]
        exact .inl (.intro .none hmark hdigits hfits)
      · rw [← Int.one_mul (Nat.cast _)]
        exact .inr (.plus .none hmark hdigits hfits)
      · rw [← Int.one_mul (-_)]
        refine .inr (.minus .none hmark ?_ hdigits hfits (by omega))
        rintro hnil
        rw [List.nil_append] at hnil
        subst hnil
        exact hminus rfl
  · rintro (h | h)
    · exact parseTrimmed_of_regular h
    · exact parseTrimmed_of_oversigned h

/-! ## Overflow -/

theorem range_of_based? (h : based? text = some x) : -0x80000000 ≤ x ∧ x ≤ 0x7FFFFFFF := by
  obtain ⟨mark, rest, base, -, -, ⟨-, hfits⟩ | ⟨-, hfits⟩ | ⟨-, hfits⟩⟩ :=
    based?_eq_some_iff.mp h
  · omega
  · omega
  · omega

theorem based?_eq_least_iff : based? text = some (-0x80000000) ↔ NegatesLeast ('-' :: text) := by
  constructor
  · intro h
    obtain ⟨mark, rest, base, rfl, hmark, hrest⟩ := based?_eq_some_iff.mp h
    generalize hx : (-0x80000000 : Int) = x at hrest
    rcases hrest with ⟨-, hfits⟩ | ⟨-, hfits⟩ | ⟨hdigits, -⟩
    · omega
    · omega
    · obtain rfl := Int.ofNat.inj (Int.neg_inj.mp hx)
      exact ⟨mark, base, _, hmark, hdigits, rfl⟩
  · rintro ⟨mark, base, digits, hmark, hdigits, htext⟩
    obtain ⟨-, rfl⟩ := List.cons_eq_cons.mp htext
    exact based?_eq_some_iff.mpr ⟨mark, _, base, rfl, hmark, .minus hdigits (Nat.le_refl _)⟩

/-- One number has no opposite. -/
theorem fits_neg_iff (h : based? text = some x) :
    fits (-x) = true ↔ ¬NegatesLeast ('-' :: text) := by
  obtain ⟨hlow, hhigh⟩ := range_of_based? h
  rw [fits_iff, ← based?_eq_least_iff, h, Option.some_inj]
  omega

/-- Reading overflows on the negative of the least number. -/
theorem parseTrimmed_eq_overflow_iff :
    parseTrimmed text = .error .overflow ↔ NegatesLeast text := by
  by_cases hminus : text.head? = some '-'
  · obtain ⟨cs, rfl⟩ := List.head?_eq_some_iff.mp hminus
    rw [parseTrimmed, elim_invalid_eq_overflow_iff]
    simp only [negate_eq_overflow_iff]
    constructor
    · rintro ⟨y, hy, hfits⟩
      rwa [fits_neg_iff hy, not_not] at hfits
    · intro hleast
      have hy := based?_eq_least_iff.mpr hleast
      exact ⟨_, hy, fun hfits => (fits_neg_iff hy).mp hfits hleast⟩
  · rw [parseTrimmed_of_head?_ne hminus, elim_invalid_eq_overflow_iff]
    constructor
    · rintro ⟨y, -, hy⟩
      cases hy
    · rintro ⟨mark, base, digits, -, -, rfl⟩
      exact absurd rfl hminus

theorem parse_eq_overflow_iff : parse text = .error .overflow ↔ NegatesLeast (Text.trim text) :=
  parseTrimmed_eq_overflow_iff

/-! ## Texts outside the grammar -/

theorem IsMark.not_mem (h : IsMark mark base) : '+' ∉ mark ∧ '-' ∉ mark := by
  rcases h with _ | _ | _
  · decide
  · decide
  · decide

/-- In a text of the grammar a sign can only be a minus sign at the beginning. -/
theorem Regular.not_mem (h : Regular text x) : '+' ∉ text ∧ '-' ∉ text.tail := by
  obtain ⟨hsign, hmark, hdigits, -⟩ := h
  have hplus := List.not_mem_append hmark.not_mem.1 (hdigits.not_mem (by decide))
  have hminus := List.not_mem_append hmark.not_mem.2 (hdigits.not_mem (by decide))
  rcases hsign with _ | _
  · exact ⟨hplus, fun hmem => hminus (List.mem_of_mem_tail hmem)⟩
  · exact ⟨List.not_mem_cons_of_ne_of_not_mem (by decide) hplus, hminus⟩

/-- The sign before the digits is one that the grammar does not allow. -/
theorem Oversigned.mem (h : Oversigned text x) : '+' ∈ text ∨ '-' ∈ text.tail := by
  rcases h with ⟨-, -, -, -⟩ | ⟨-, -, hsecond, -, -, -⟩
  · exact .inl (by simp)
  · right
    rw [← List.append_assoc, List.tail_append_of_ne_nil hsecond]
    simp

theorem Regular.not_oversigned (h : Regular text x) : ¬Oversigned text y := by
  intro hy
  rcases hy.mem with hplus | hminus
  · exact h.not_mem.1 hplus
  · exact h.not_mem.2 hminus

/-- The reader accepts the texts of the grammar, with the integers that they denote, and the
oversigned ones, and it overflows on the negative of the least number.  So it follows the grammar on
exactly the texts that are not oversigned. -/
theorem reads_grammar_iff (text : List Char) :
    (∀ x, parse text = .ok x ↔
        Regular (Text.trim text) x ∨ Oversigned (Text.trim text) x) ∧
      (parse text = .error .overflow ↔ NegatesLeast (Text.trim text)) ∧
      ((∀ x, parse text = .ok x ↔ Regular (Text.trim text) x) ↔
        ∀ x, ¬Oversigned (Text.trim text) x) := by
  have hreads : ∀ x, parse text = .ok x ↔
      Regular (Text.trim text) x ∨ Oversigned (Text.trim text) x := fun x =>
    parseTrimmed_eq_ok_iff
  refine ⟨hreads, parse_eq_overflow_iff, ?_⟩
  constructor
  · intro hgrammar x hx
    have hregular := (hgrammar x).mp ((hreads x).mpr (.inr hx))
    exact hregular.not_oversigned hx
  · intro hnone x
    rw [hreads, or_iff_left (hnone x)]

/-- Two minus signs are read as none. -/
theorem second_minus_read :
    assemble "DB --5" = .ok [5] ∧ parse "--5".toList = .ok 5 ∧ ∀ x, ¬Regular "--5".toList x := by
  refine ⟨rfl, rfl, fun x h => ?_⟩
  exact h.not_mem.2 (by decide)

end Signs
end Numeral
end Assembly
end CoreWar
