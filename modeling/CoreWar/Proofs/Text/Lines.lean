import CoreWar.Text.Blank

/-!
# Pieces of text

Joining pieces with a separator and splitting the text again gives the pieces
back, as long as no piece holds the separator.  Blanks at the ends of a text do
not matter to `trim`, and a text without them is not changed by it.
-/

namespace CoreWar
namespace Text

variable {separator : Char} {cs rest : List Char}

/-! ## Splitting and joining -/

theorem split_cons_of_ne {c : Char} (h : c ≠ separator) {p : List Char} {ps : List (List Char)}
    (hcs : split separator cs = p :: ps) : split separator (c :: cs) = (c :: p) :: ps := by
  unfold split at hcs ⊢
  rw [List.foldr_cons, hcs, if_neg h]

theorem split_ne_nil (cs : List Char) : split separator cs ≠ [] := by
  cases cs with
  | nil => exact List.cons_ne_nil _ _
  | cons c cs =>
      rw [split, List.foldr_cons]
      split
      · exact List.cons_ne_nil _ _
      · split <;> exact List.cons_ne_nil _ _

theorem split_cons_self (separator : Char) (cs : List Char) :
    split separator (separator :: cs) = [] :: split separator cs := by
  rw [split, List.foldr_cons, if_pos rfl, ← split]

theorem exists_split_eq_cons (separator : Char) (cs : List Char) :
    ∃ p ps, split separator cs = p :: ps := List.exists_cons_of_ne_nil (split_ne_nil cs)

theorem split_append (h : separator ∉ cs) :
    split separator (cs ++ separator :: rest) = cs :: split separator rest := by
  induction cs with
  | nil => exact split_cons_self separator rest
  | cons c cs ih =>
      rw [List.mem_cons, not_or] at h
      exact split_cons_of_ne (fun e => h.1 e.symm) (ih h.2)

theorem split_of_not_mem (h : separator ∉ cs) : split separator cs = [cs] := by
  induction cs with
  | nil => rfl
  | cons c cs ih =>
      rw [List.mem_cons, not_or] at h
      exact split_cons_of_ne (fun e => h.1 e.symm) (ih h.2)

theorem not_mem_of_mem_split {p : List Char} (h : p ∈ split separator cs) : separator ∉ p := by
  induction cs generalizing p with
  | nil =>
      rw [split, List.foldr_nil, List.mem_singleton] at h
      rw [h]
      exact List.not_mem_nil
  | cons c cs ih =>
      by_cases hc : separator = c
      · subst hc
        rw [split_cons_self] at h
        rcases List.mem_cons.mp h with rfl | h
        · exact List.not_mem_nil
        · exact ih h
      · obtain ⟨q, qs, hcs⟩ := exists_split_eq_cons separator cs
        rw [split_cons_of_ne (Ne.symm hc) hcs] at h
        rw [hcs] at ih
        rcases List.mem_cons.mp h with rfl | h
        · exact List.not_mem_cons_of_ne_of_not_mem hc (ih List.mem_cons_self)
        · exact ih (List.mem_cons_of_mem q h)

/-- Splitting only takes out the separators. -/
theorem flatten_split_sublist (separator : Char) (cs : List Char) :
    (split separator cs).flatten.Sublist cs := by
  induction cs with
  | nil => exact .refl _
  | cons c cs ih =>
      by_cases hc : separator = c
      · subst hc
        rw [split_cons_self, List.flatten_cons, List.nil_append]
        exact ih.cons separator
      · obtain ⟨q, qs, hcs⟩ := exists_split_eq_cons separator cs
        rw [split_cons_of_ne (Ne.symm hc) hcs, List.flatten_cons, List.cons_append,
          ← List.flatten_cons, ← hcs]
        exact ih.cons_cons c

theorem length_split_le (separator : Char) (cs : List Char) :
    (split separator cs).length ≤ cs.length + 1 := by
  induction cs with
  | nil => exact Nat.le_refl 1
  | cons c cs ih =>
      by_cases hc : separator = c
      · subst hc
        rw [split_cons_self]
        exact Nat.succ_le_succ ih
      · obtain ⟨q, qs, hcs⟩ := exists_split_eq_cons separator cs
        rw [split_cons_of_ne (Ne.symm hc) hcs, List.length_cons, List.length_cons]
        rw [hcs, List.length_cons] at ih
        exact Nat.le_succ_of_le ih

theorem join_cons_cons (s p q : List Char) (ps : List (List Char)) :
    join s (p :: q :: ps) = p ++ (s ++ join s (q :: ps)) := by
  simp [join]

theorem split_join {pieces : List (List Char)} (hne : pieces ≠ [])
    (h : ∀ p ∈ pieces, separator ∉ p) : split separator (join [separator] pieces) = pieces := by
  induction pieces with
  | nil => exact absurd rfl hne
  | cons p ps ih =>
      rw [List.forall_mem_cons] at h
      cases ps with
      | nil =>
          have hone : join [separator] [p] = p := by simp [join]
          rw [hone, split_of_not_mem h.1]
      | cons q qs =>
          rw [join_cons_cons, List.singleton_append, split_append h.1,
            ih (List.cons_ne_nil q qs) h.2]

/-- Text in which every line is ended has an empty piece behind the last line. -/
theorem split_flatMap_ended {lines : List (List Char)} (h : ∀ l ∈ lines, separator ∉ l) :
    split separator (lines.flatMap (· ++ [separator])) = lines ++ [[]] := by
  induction lines with
  | nil => rfl
  | cons l ls ih =>
      rw [List.forall_mem_cons] at h
      rw [List.flatMap_cons, List.append_assoc, List.singleton_append, split_append h.1, ih h.2,
        List.cons_append]

/-- The joined text ends with its last piece. -/
theorem join_eq_append_getLast (s : List Char) {pieces : List (List Char)} (hne : pieces ≠ []) :
    ∃ front, join s pieces = front ++ pieces.getLast hne := by
  induction pieces with
  | nil => exact absurd rfl hne
  | cons p ps ih =>
      cases ps with
      | nil => exact ⟨[], by simp [join]⟩
      | cons q qs =>
          obtain ⟨front, hfront⟩ := ih (List.cons_ne_nil q qs)
          refine ⟨p ++ (s ++ front), ?_⟩
          rw [join_cons_cons, hfront, List.getLast_cons (List.cons_ne_nil q qs)]
          simp only [List.append_assoc]

theorem mem_join {s : List Char} {pieces : List (List Char)} {c : Char}
    (h : c ∈ join s pieces) : c ∈ s ∨ ∃ p ∈ pieces, c ∈ p := by
  induction pieces with
  | nil => simp [join] at h
  | cons p ps ih =>
      cases ps with
      | nil => exact .inr ⟨p, by simp, by simpa [join] using h⟩
      | cons q qs =>
          rw [join_cons_cons, List.mem_append, List.mem_append] at h
          obtain h | h | h := h
          · exact .inr ⟨p, by simp, h⟩
          · exact .inl h
          · obtain hs | ⟨r, hr, hc⟩ := ih h
            · exact .inl hs
            · exact .inr ⟨r, List.mem_cons_of_mem p hr, hc⟩

/-- What is taken from the front of a text, and what is left. -/
theorem takeWhile_dropWhile_append {keep : Char → Bool} {front rest : List Char}
    (hfront : ∀ c ∈ front, keep c = true) (hrest : ∀ c ∈ rest.head?, keep c = false) :
    (front ++ rest).takeWhile keep = front ∧ (front ++ rest).dropWhile keep = rest := by
  rw [List.takeWhile_append_of_pos hfront, List.dropWhile_append_of_pos hfront]
  cases rest with
  | nil => exact ⟨List.append_nil front, rfl⟩
  | cons c cs =>
      have hc : ¬keep c = true := by simp [hrest c rfl]
      rw [List.takeWhile_cons_of_neg hc, List.dropWhile_cons_of_neg hc, List.append_nil]
      exact ⟨rfl, rfl⟩

/-! ## Blanks at the ends -/

theorem dropWhile_isBlank_eq_self (h : ∀ c ∈ cs.head?, isBlank c = false) :
    cs.dropWhile isBlank = cs := by
  cases cs with
  | nil => rfl
  | cons c cs =>
      have hc : isBlank c = false := h c rfl
      rw [List.dropWhile_cons, if_neg (by simp [hc])]

/-- A text that neither begins nor ends with a blank is not changed. -/
theorem trim_eq_self (hfirst : ∀ c ∈ cs.head?, isBlank c = false)
    (hlast : ∀ c ∈ cs.getLast?, isBlank c = false) : trim cs = cs := by
  rw [trim, dropWhile_isBlank_eq_self hfirst, dropWhile_isBlank_eq_self, List.reverse_reverse]
  rwa [List.head?_reverse]

theorem trim_of_forall (h : ∀ c ∈ cs, isBlank c = false) : trim cs = cs :=
  trim_eq_self (fun c hc => h c (List.mem_of_mem_head? hc))
    (fun c hc => h c (List.mem_of_mem_getLast? hc))

theorem trim_cons_of_isBlank {c : Char} (h : isBlank c = true) : trim (c :: cs) = trim cs := by
  rw [trim, List.dropWhile_cons, if_pos h, ← trim]

theorem trim_append_of_isBlank {blanks : List Char} (h : ∀ c ∈ blanks, isBlank c = true) :
    trim (cs ++ blanks) = trim cs := by
  have hdrop : blanks.dropWhile isBlank = [] := by
    rw [← List.append_nil blanks, List.dropWhile_append_of_pos h, List.dropWhile_nil]
  rw [trim, trim, List.dropWhile_append]
  split
  next hempty =>
    rw [hdrop, List.isEmpty_iff.mp hempty]
  · rw [List.reverse_append, List.dropWhile_append_of_pos]
    intro c hc
    exact h c (List.mem_reverse.mp hc)

theorem trim_isBlank_append {blanks : List Char} (h : ∀ c ∈ blanks, isBlank c = true) :
    trim (blanks ++ cs) = trim cs := by
  rw [trim, List.dropWhile_append_of_pos h, ← trim]

/-- Only blanks are taken off. -/
theorem exists_blanks_trim (cs : List Char) :
    ∃ before after, (∀ c ∈ before, isBlank c = true) ∧ (∀ c ∈ after, isBlank c = true) ∧
      cs = before ++ trim cs ++ after := by
  refine ⟨cs.takeWhile isBlank, ((cs.dropWhile isBlank).reverse.takeWhile isBlank).reverse,
    List.all_eq_true.mp List.all_takeWhile, fun c hc => ?_, ?_⟩
  · exact List.all_eq_true.mp List.all_takeWhile c (List.mem_reverse.mp hc)
  · rw [trim, List.append_assoc, ← List.reverse_append, List.takeWhile_append_dropWhile,
      List.reverse_reverse, List.takeWhile_append_dropWhile]

/-- Blanks in front of a text go to its first piece. -/
theorem map_trim_split_cons {c : Char} (hblank : isBlank c = true) (hc : c ≠ separator)
    (cs : List Char) : (split separator (c :: cs)).map trim = (split separator cs).map trim := by
  cases hcs : split separator cs with
  | nil => exact absurd hcs (split_ne_nil cs)
  | cons p ps =>
      rw [split_cons_of_ne hc hcs, List.map_cons, List.map_cons, trim_cons_of_isBlank hblank]

/-- Pieces with blanks between them are read back if the blanks are taken off. -/
theorem map_trim_split_join {pieces : List (List Char)} (hne : pieces ≠ [])
    (hblank : separator ≠ ' ') (h : ∀ p ∈ pieces, separator ∉ p) :
    (split separator (join [separator, ' '] pieces)).map trim = pieces.map trim := by
  induction pieces with
  | nil => exact absurd rfl hne
  | cons p ps ih =>
      rw [List.forall_mem_cons] at h
      cases ps with
      | nil =>
          have hone : join [separator, ' '] [p] = p := by simp [join]
          rw [hone, split_of_not_mem h.1]
      | cons q qs =>
          rw [join_cons_cons, List.cons_append, List.singleton_append, split_append h.1,
            List.map_cons, map_trim_split_cons (by decide) hblank.symm,
            ih (List.cons_ne_nil q qs) h.2]
          rfl

/-- Joined text ends with a character of a piece. -/
theorem getLast?_join (s : List Char) {pieces : List (List Char)} (hne : pieces ≠ [])
    (h : ∀ p ∈ pieces, p ≠ []) :
    ∃ p ∈ pieces, ∃ c ∈ p, (join s pieces).getLast? = some c := by
  obtain ⟨front, hfront⟩ := join_eq_append_getLast s hne
  have hlast := h _ (List.getLast_mem hne)
  refine ⟨_, List.getLast_mem hne, _, List.getLast_mem hlast, ?_⟩
  rw [hfront, List.getLast?_append, List.getLast?_eq_some_getLast hlast, Option.some_or]

/-- Pieces without blanks have no blanks at their ends when they are joined. -/
theorem trim_join (s : List Char) {pieces : List (List Char)}
    (h : ∀ p ∈ pieces, p ≠ [] ∧ ∀ c ∈ p, isBlank c = false) :
    trim (join s pieces) = join s pieces := by
  cases pieces with
  | nil => rfl
  | cons p ps =>
      obtain ⟨hp, hfirst⟩ := h p List.mem_cons_self
      obtain ⟨q, hq, d, hd, hlast⟩ :=
        getLast?_join s (List.cons_ne_nil p ps) fun r hr => (h r hr).1
      apply trim_eq_self
      · intro c hc
        have hhead : (join s (p :: ps)).head? = some (p.head hp) := by
          cases ps with
          | nil => simp [join, List.head?_eq_some_head hp]
          | cons r rs =>
              rw [join_cons_cons, List.head?_append, List.head?_eq_some_head hp, Option.some_or]
        rw [hhead] at hc
        cases hc
        exact hfirst _ (List.head_mem hp)
      · intro c hc
        rw [hlast] at hc
        cases hc
        exact (h q hq).2 d hd

theorem trim_sublist (cs : List Char) : (trim cs).Sublist cs := by
  have hback := (List.dropWhile_sublist isBlank (l := (cs.dropWhile isBlank).reverse)).reverse
  rw [List.reverse_reverse] at hback
  exact hback.trans (List.dropWhile_sublist isBlank)

theorem mem_of_mem_trim {c : Char} (h : c ∈ trim cs) : c ∈ cs := (trim_sublist cs).mem h

end Text
end CoreWar
