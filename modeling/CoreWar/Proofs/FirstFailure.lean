import CoreWar.Proofs.Checks

/-!
# The first check that fails

A validator makes its checks in a fixed order, and the first one that fails decides
the error.  The order is a list of checks, each with the error that it reports, and
`Decides` says that a computation goes by such a list: it gives a result if all of
the checks hold, and the error of the first failure if not.

Computations in sequence go by their lists in sequence (`Decides.bind`), and a loop
by the lists of its passes (`Decides.mapM`, `Decides.foldlM`).
-/

namespace CoreWar
namespace Checks

variable {ε α β : Type}

/-- A condition, and the error that is reported if it does not hold. -/
structure Check (ε : Type) where
  holds : Prop
  error : ε

/-- All checks of a list hold. -/
def AllHold (ks : List (Check ε)) : Prop := ∀ k ∈ ks, k.holds

/-- The first check of a list that does not hold reports an error. -/
inductive FirstFailure : List (Check ε) → ε → Prop
  | here {k : Check ε} {ks : List (Check ε)} (h : ¬k.holds) : FirstFailure (k :: ks) k.error
  | later {k : Check ε} {ks : List (Check ε)} {e : ε} (hk : k.holds) (h : FirstFailure ks e) :
      FirstFailure (k :: ks) e

/-- The same checks with other errors. -/
def withErrors (f : ε → ε) (ks : List (Check ε)) : List (Check ε) :=
  ks.map fun k => ⟨k.holds, f k.error⟩

variable {ks ks' : List (Check ε)} {e e' : ε}

@[simp] theorem allHold_nil : AllHold ([] : List (Check ε)) := by simp [AllHold]

@[simp] theorem allHold_cons {k : Check ε} : AllHold (k :: ks) ↔ k.holds ∧ AllHold ks := by
  simp [AllHold]

@[simp] theorem allHold_append : AllHold (ks ++ ks') ↔ AllHold ks ∧ AllHold ks' := by
  simp [AllHold, or_imp, forall_and]

@[simp] theorem allHold_flatMap {xs : List α} {f : α → List (Check ε)} :
    AllHold (xs.flatMap f) ↔ ∀ x ∈ xs, AllHold (f x) := by
  simp only [AllHold, List.mem_flatMap]
  exact ⟨fun h x hx k hk => h k ⟨x, hx, hk⟩, fun h k ⟨x, hx, hk⟩ => h x hx k hk⟩

@[simp] theorem allHold_withErrors {f : ε → ε} : AllHold (withErrors f ks) ↔ AllHold ks := by
  simp [AllHold, withErrors]

/-- Either all checks hold or there is a first one that does not. -/
theorem allHold_or_firstFailure (ks : List (Check ε)) : AllHold ks ∨ ∃ e, FirstFailure ks e := by
  induction ks with
  | nil => exact .inl allHold_nil
  | cons k ks ih =>
      by_cases hk : k.holds
      · obtain hall | ⟨e, he⟩ := ih
        · exact .inl (allHold_cons.mpr ⟨hk, hall⟩)
        · exact .inr ⟨e, .later hk he⟩
      · exact .inr ⟨k.error, .here hk⟩

theorem FirstFailure.not_allHold (h : FirstFailure ks e) : ¬AllHold ks := by
  induction h with
  | here hk => exact fun hall => hk (allHold_cons.mp hall).1
  | later _ _ ih => exact fun hall => ih (allHold_cons.mp hall).2

theorem FirstFailure.unique (h : FirstFailure ks e) (h' : FirstFailure ks e') : e' = e := by
  induction h with
  | here hk =>
      cases h' with
      | here => rfl
      | later hk' => exact absurd hk' hk
  | later hk _ ih =>
      cases h' with
      | here hk' => exact absurd hk hk'
      | later _ h' => exact ih h'

theorem firstFailure_append :
    FirstFailure (ks ++ ks') e ↔ FirstFailure ks e ∨ (AllHold ks ∧ FirstFailure ks' e) := by
  constructor
  · intro h
    induction ks with
    | nil => exact .inr ⟨allHold_nil, h⟩
    | cons k ks ih =>
        cases h with
        | here hk => exact .inl (.here hk)
        | later hk h =>
            obtain hleft | ⟨hall, hright⟩ := ih h
            · exact .inl (.later hk hleft)
            · exact .inr ⟨allHold_cons.mpr ⟨hk, hall⟩, hright⟩
  · rintro (h | ⟨hall, h⟩)
    · induction h with
      | here hk => exact .here hk
      | later hk _ ih => exact .later hk ih
    · induction ks with
      | nil => exact h
      | cons k ks ih =>
          obtain ⟨hk, hrest⟩ := allHold_cons.mp hall
          exact .later hk (ih hrest)

theorem FirstFailure.withErrors {f : ε → ε} (h : FirstFailure ks e) :
    FirstFailure (withErrors f ks) (f e) := by
  induction h with
  | @here k ks hk => exact .here (k := ⟨k.holds, f k.error⟩) hk
  | later hk _ ih => exact .later hk ih

/-! ## Computations that go by a list of checks -/

/-- A computation gives a result of some kind if all checks of a list hold, and else
the error of the first failure. -/
structure Decides (ks : List (Check ε)) (x : Except ε α) (P : α → Prop) : Prop where
  ok : AllHold ks → ∃ a, x = .ok a ∧ P a
  error : ∀ e, FirstFailure ks e → x = .error e

namespace Decides

variable {x : Except ε α} {a : α} {P : α → Prop} {Q : β → Prop}

theorem of_ok (hall : AllHold ks) (ha : P a) : Decides ks (.ok a) P :=
  ⟨fun _ => ⟨a, rfl, ha⟩, fun _ h => absurd hall h.not_allHold⟩

theorem of_error (h : FirstFailure ks e) : Decides ks (.error e : Except ε α) P :=
  ⟨fun hall => absurd hall h.not_allHold, fun _ h' => congrArg Except.error (h.unique h').symm⟩

/-- What comes of the computation, with what that says about the checks. -/
theorem result (h : Decides ks x P) :
    (AllHold ks ∧ ∃ a, x = .ok a ∧ P a) ∨ ∃ e, FirstFailure ks e ∧ x = .error e := by
  obtain hall | ⟨e, he⟩ := allHold_or_firstFailure ks
  · exact .inl ⟨hall, h.ok hall⟩
  · exact .inr ⟨e, he, h.error e he⟩

theorem exists_eq_ok_iff (h : Decides ks x P) : (∃ a, x = .ok a) ↔ AllHold ks := by
  constructor
  · rintro ⟨a, ha⟩
    obtain ⟨hall, -⟩ | ⟨e, -, he⟩ := h.result
    · exact hall
    · rw [ha] at he
      cases he
  · intro hall
    obtain ⟨a, ha, -⟩ := h.ok hall
    exact ⟨a, ha⟩

theorem eq_error_iff (h : Decides ks x P) : x = .error e ↔ FirstFailure ks e := by
  constructor
  · intro he
    obtain ⟨-, a, ha, -⟩ | ⟨e', hfirst, he'⟩ := h.result
    · rw [he] at ha
      cases ha
    · rw [he] at he'
      cases he'
      exact hfirst
  · exact h.error e

theorem of_eq_ok (h : Decides ks x P) (ha : x = .ok a) : P a := by
  obtain ⟨-, b, hb, hp⟩ | ⟨e, -, he⟩ := h.result
  · rw [ha] at hb
    cases hb
    exact hp
  · rw [ha] at he
    cases he

theorem bind {f : α → Except ε β} (h : Decides ks x P)
    (hf : ∀ a, AllHold ks → P a → Decides ks' (f a) Q) : Decides (ks ++ ks') (x >>= f) Q := by
  obtain ⟨hall, a, rfl, ha⟩ | ⟨e, he, rfl⟩ := h.result
  · obtain ⟨hall', b, hb, hq⟩ | ⟨e, he, hb⟩ := (hf a hall ha).result
    · change Decides _ (f a) Q
      rw [hb]
      exact .of_ok (allHold_append.mpr ⟨hall, hall'⟩) hq
    · change Decides _ (f a) Q
      rw [hb]
      exact .of_error (firstFailure_append.mpr (.inr ⟨hall, he⟩))
  · exact .of_error (firstFailure_append.mpr (.inl he))

theorem map {f : α → β} (h : Decides ks x P) (hf : ∀ a, P a → Q (f a)) :
    Decides ks (x.map f) Q := by
  obtain ⟨hall, a, rfl, ha⟩ | ⟨e, he, rfl⟩ := h.result
  · exact .of_ok hall (hf a ha)
  · exact .of_error he

/-- A check that holds may stand before the others. -/
theorem cons {k : Check ε} (hk : k.holds) (h : Decides ks x P) : Decides (k :: ks) x P := by
  obtain ⟨hall, a, rfl, ha⟩ | ⟨e, he, rfl⟩ := h.result
  · exact .of_ok (allHold_cons.mpr ⟨hk, hall⟩) ha
  · exact .of_error (.later hk he)

/-- A check made for every item, with the result that each item is to give. -/
theorem mapM {f : α → Except ε β} {g : α → β} {checks : α → List (Check ε)} {xs : List α}
    (h : ∀ x ∈ xs, Decides (checks x) (f x) (· = g x)) :
    Decides (xs.flatMap checks) (xs.mapM f) (· = xs.map g) := by
  induction xs with
  | nil => exact .of_ok allHold_nil rfl
  | cons x xs ih =>
      rw [List.mapM_cons, List.flatMap_cons]
      refine (h x List.mem_cons_self).bind fun y _ hy => ?_
      rw [← List.append_nil (xs.flatMap checks)]
      refine (ih fun z hz => h z (List.mem_cons_of_mem x hz)).bind fun ys _ hys => ?_
      exact .of_ok allHold_nil (by rw [hy, hys, List.map_cons])

/-- A check made for every item in turn, each with what came of those before. -/
theorem foldlM {f : β → α → Except ε β} {checks : α → List (Check ε)} {xs : List α} {b : β}
    (h : ∀ b, ∀ x ∈ xs, Decides (checks x) (f b x) fun _ => True) :
    Decides (xs.flatMap checks) (xs.foldlM f b) fun _ => True := by
  induction xs generalizing b with
  | nil => exact .of_ok allHold_nil trivial
  | cons x xs ih =>
      rw [List.foldlM_cons, List.flatMap_cons]
      exact (h b x List.mem_cons_self).bind fun b' _ _ =>
        ih fun b z hz => h b z (List.mem_cons_of_mem x hz)

end Decides
end Checks
end CoreWar
