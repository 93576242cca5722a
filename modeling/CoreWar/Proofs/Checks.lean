import Mathlib.Data.List.Forall2

/-!
# Sequences of checks

A computation that may fail goes on only if every check before has passed.  The
lemmas here take a passed sequence apart: into its steps, or, where the same
check is made for every item of a list, into one passed check for each item.
-/

namespace CoreWar
namespace Checks

variable {ε α β : Type}

theorem bind_eq_ok {x : Except ε α} {f : α → Except ε β} {b : β} :
    (x >>= f) = .ok b ↔ ∃ a, x = .ok a ∧ f a = .ok b := by
  cases x with
  | error e => simp [bind, Except.bind]
  | ok a => simp [bind, Except.bind]

/-- What follows a check may rely on its result. -/
theorem bind_congr_of_ok {x : Except ε α} {f g : α → Except ε β}
    (h : ∀ a, x = .ok a → f a = g a) : x >>= f = x >>= g := by
  cases x with
  | error e => rfl
  | ok a => exact h a rfl

/-- A list of checks depends on the check of each item only. -/
theorem mapM_congr {f g : α → Except ε β} {xs : List α} (h : ∀ x ∈ xs, f x = g x) :
    xs.mapM f = xs.mapM g := by
  induction xs with
  | nil => rfl
  | cons x xs ih =>
      rw [List.forall_mem_cons] at h
      rw [List.mapM_cons, List.mapM_cons, h.1, ih h.2]

theorem map_eq_ok {x : Except ε α} {f : α → β} {b : β} :
    x.map f = .ok b ↔ ∃ a, x = .ok a ∧ f a = b := by
  cases x with
  | error e => simp [Except.map]
  | ok a => simp [Except.map]

/-- A check made for every item has passed for every item. -/
theorem forall₂_of_mapM_eq_ok {f : α → Except ε β} {xs : List α} {ys : List β}
    (h : xs.mapM f = .ok ys) : List.Forall₂ (fun x y => f x = .ok y) xs ys := by
  induction xs generalizing ys with
  | nil =>
      cases h
      exact .nil
  | cons x xs ih =>
      rw [List.mapM_cons] at h
      obtain ⟨y, hy, h⟩ := bind_eq_ok.mp h
      obtain ⟨ys', hys, h⟩ := bind_eq_ok.mp h
      cases h
      exact .cons hy (ih hys)

theorem mapM_eq_ok_of_forall₂ {f : α → Except ε β} {xs : List α} {ys : List β}
    (h : List.Forall₂ (fun x y => f x = .ok y) xs ys) : xs.mapM f = .ok ys := by
  induction h with
  | nil => rfl
  | cons hy _ ih =>
      rw [List.mapM_cons, hy, ih]
      rfl

theorem length_of_mapM_eq_ok {f : α → Except ε β} {xs : List α} {ys : List β}
    (h : xs.mapM f = .ok ys) : ys.length = xs.length :=
  (forall₂_of_mapM_eq_ok h).length_eq.symm

/-- What every passed check promises holds of every result. -/
theorem forall_mem_of_mapM_eq_ok {f : α → Except ε β} {P : β → Prop}
    (hf : ∀ x y, f x = .ok y → P y) {xs : List α} {ys : List β}
    (h : xs.mapM f = .ok ys) : ∀ y ∈ ys, P y := by
  have hall := forall₂_of_mapM_eq_ok h
  clear h
  induction hall with
  | nil => simp
  | cons hy _ ih =>
      intro z hz
      rcases List.mem_cons.mp hz with rfl | hz
      · exact hf _ _ hy
      · exact ih z hz

/-- What every passed check reads off its item is read off all items. -/
theorem map_eq_map_of_mapM_eq_ok {γ : Type} {f : α → Except ε β} {g : β → γ} {k : α → γ}
    (hf : ∀ x y, f x = .ok y → g y = k x) {xs : List α} {ys : List β}
    (h : xs.mapM f = .ok ys) : ys.map g = xs.map k := by
  have hall := forall₂_of_mapM_eq_ok h
  clear h
  induction hall with
  | nil => rfl
  | cons hy _ ih => rw [List.map_cons, List.map_cons, hf _ _ hy, ih]

theorem mapM_cons_eq_ok {f : α → Except ε β} {x : α} {xs : List α} {zs : List β} :
    (x :: xs).mapM f = .ok zs ↔ ∃ y ys, f x = .ok y ∧ xs.mapM f = .ok ys ∧ zs = y :: ys := by
  rw [List.mapM_cons]
  constructor
  · intro h
    obtain ⟨y, hy, h⟩ := bind_eq_ok.mp h
    obtain ⟨ys, hys, h⟩ := bind_eq_ok.mp h
    cases h
    exact ⟨y, ys, hy, hys, rfl⟩
  · rintro ⟨y, ys, hy, hys, rfl⟩
    rw [hy, hys]
    rfl

/-- Checks of a list in two parts. -/
theorem mapM_append_eq_ok {f : α → Except ε β} {front back : List α} {zs : List β} :
    (front ++ back).mapM f = .ok zs ↔
      ∃ xs ys, front.mapM f = .ok xs ∧ back.mapM f = .ok ys ∧ zs = xs ++ ys := by
  rw [List.mapM_append]
  constructor
  · intro h
    obtain ⟨xs, hxs, h⟩ := bind_eq_ok.mp h
    obtain ⟨ys, hys, h⟩ := bind_eq_ok.mp h
    cases h
    exact ⟨xs, ys, hxs, hys, rfl⟩
  · rintro ⟨xs, ys, hxs, hys, rfl⟩
    rw [hxs, hys]
    rfl

/-- Where some of the items are checked and each check gives what is known of its
item, it does so for every item that is checked. -/
theorem eq_ok_of_mapM_filterMap {γ : Type} {f : α → Except ε β} {pick : γ → Option α} {g : γ → β}
    {items : List γ}
    (h : (items.filterMap pick).mapM f = .ok ((items.filter fun i => (pick i).isSome).map g))
    {i : γ} (hi : i ∈ items) {x : α} (hx : pick i = some x) : f x = .ok (g i) := by
  induction items with
  | nil => cases hi
  | cons j js ih =>
      cases hj : pick j with
      | none =>
          have hne : i ≠ j := by
            rintro rfl
            rw [hj] at hx
            cases hx
          rw [List.filterMap_cons_none hj, List.filter_cons_of_neg (by simp [hj])] at h
          exact ih h ((List.mem_cons.mp hi).resolve_left hne)
      | some y =>
          rw [List.filterMap_cons_some hj, List.filter_cons_of_pos (by simp [hj]),
            List.map_cons] at h
          obtain ⟨z, zs, hz, hzs, hcons⟩ := mapM_cons_eq_ok.mp h
          obtain ⟨rfl, rfl⟩ := List.cons_eq_cons.mp hcons
          obtain rfl | hi := List.mem_cons.mp hi
          · rw [hj] at hx
            cases hx
            exact hz
          · exact ih hzs hi

/-- Where some of the items are checked, the results stand in the order of these items. -/
theorem exists_mem_zip_of_mapM_filterMap {γ : Type} {f : α → Except ε β} {pick : γ → Option α}
    {items : List γ} {ys : List β} (h : (items.filterMap pick).mapM f = .ok ys) {i : γ}
    (hi : i ∈ items) {x : α} (hx : pick i = some x) :
    ∃ y, f x = .ok y ∧ (i, y) ∈ (items.filter fun i => (pick i).isSome).zip ys := by
  induction items generalizing ys with
  | nil => cases hi
  | cons j js ih =>
      cases hj : pick j with
      | none =>
          have hne : i ≠ j := by
            rintro rfl
            rw [hj] at hx
            cases hx
          rw [List.filterMap_cons_none hj] at h
          rw [List.filter_cons_of_neg (by simp [hj])]
          exact ih h ((List.mem_cons.mp hi).resolve_left hne)
      | some z =>
          rw [List.filterMap_cons_some hj] at h
          obtain ⟨y, ys', hy, hys, rfl⟩ := mapM_cons_eq_ok.mp h
          rw [List.filter_cons_of_pos (by simp [hj]), List.zip_cons_cons]
          obtain rfl | hi := List.mem_cons.mp hi
          · rw [hj] at hx
            cases hx
            exact ⟨y, hy, List.mem_cons_self⟩
          · obtain ⟨w, hw, hmem⟩ := ih hys hi
            exact ⟨w, hw, List.mem_cons_of_mem _ hmem⟩

/-- A check that gives what is known of every item gives it for a whole list. -/
theorem mapM_map_eq_ok_map {γ : Type} {f : α → Except ε β} {g : γ → α} {k : γ → β}
    {items : List γ} (h : ∀ i ∈ items, f (g i) = .ok (k i)) :
    (items.map g).mapM f = .ok (items.map k) := by
  induction items with
  | nil => rfl
  | cons i items ih =>
      rw [List.forall_mem_cons] at h
      rw [List.map_cons, List.mapM_cons, h.1, ih h.2]
      rfl

/-- A check that reads back what was written reads back a whole list. -/
theorem mapM_map_eq_ok {f : α → Except ε β} {g : β → α} (h : ∀ y, f (g y) = .ok y)
    (ys : List β) : (ys.map g).mapM f = .ok ys := by
  rw [mapM_map_eq_ok_map (k := id) fun y _ => h y, List.map_id]

/-- What every step of a fold keeps, the fold keeps. -/
theorem foldlM_invariant {f : β → α → Except ε β} {P : β → Prop}
    (hf : ∀ b a b', P b → f b a = .ok b' → P b') {xs : List α} {b b' : β}
    (hb : P b) (h : xs.foldlM f b = .ok b') : P b' := by
  induction xs generalizing b with
  | nil =>
      cases h
      exact hb
  | cons x xs ih =>
      rw [List.foldlM_cons] at h
      obtain ⟨c, hc, h⟩ := bind_eq_ok.mp h
      exact ih (hf b x c hb hc) h

/-! ## Where a sequence fails -/

theorem bind_eq_error {x : Except ε α} {f : α → Except ε β} {e : ε} :
    (x >>= f) = .error e ↔ x = .error e ∨ ∃ a, x = .ok a ∧ f a = .error e := by
  cases x with
  | error e => simp [bind, Except.bind]
  | ok a => simp [bind, Except.bind]

/-- Only the first part of a sequence fails with an error that the second part never gives. -/
theorem bind_eq_error_of_ne {x : Except ε α} {f : α → Except ε β} {e : ε}
    (hf : ∀ a, f a ≠ .error e) : (x >>= f) = .error e ↔ x = .error e := by
  rw [bind_eq_error]
  refine or_iff_left ?_
  rintro ⟨a, -, ha⟩
  exact hf a ha

theorem bind_pure_eq_error {x : Except ε α} {f : α → β} {e : ε} :
    (x >>= fun a => pure (f a)) = .error e ↔ x = .error e :=
  bind_eq_error_of_ne fun a h => by cases h

/-- An item of a list comes to its turn: all goes well with the items before it. -/
inductive Reached (f : α → Except ε β) : List α → α → Prop
  | here {x : α} {xs : List α} : Reached f (x :: xs) x
  | later {x y : α} {xs : List α} {b : β} (hx : f x = .ok b) (h : Reached f xs y) :
      Reached f (x :: xs) y

/-- A list of checks fails where an item that comes to its turn does. -/
theorem mapM_eq_error_iff {f : α → Except ε β} {xs : List α} {e : ε} :
    xs.mapM f = .error e ↔ ∃ x, Reached f xs x ∧ f x = .error e := by
  induction xs with
  | nil =>
      constructor
      · intro h
        cases h
      · rintro ⟨x, hx, -⟩
        cases hx
  | cons x xs ih =>
      have hrest : ∀ y, (xs.mapM f >>= fun ys => pure (y :: ys)) = .error e ↔
          ∃ z, Reached f xs z ∧ f z = .error e := by
        intro y
        rw [bind_pure_eq_error, ih]
      rw [List.mapM_cons, bind_eq_error]
      constructor
      · rintro (hx | ⟨y, hy, h⟩)
        · exact ⟨x, .here, hx⟩
        · obtain ⟨z, hz, hfails⟩ := (hrest y).mp h
          exact ⟨z, .later hy hz, hfails⟩
      · rintro ⟨z, _ | ⟨hy, hz⟩, hfails⟩
        · exact .inl hfails
        · exact .inr ⟨_, hy, (hrest _).mpr ⟨z, hz, hfails⟩⟩

/-! ## Errors in another form -/

theorem mapError_eq_ok_iff {δ : Type} {x : Except ε α} {f : ε → δ} {a : α} :
    x.mapError f = .ok a ↔ x = .ok a := by
  cases x <;> simp [Except.mapError]

theorem mapError_bind {δ : Type} (f : ε → δ) (x : Except ε α) (g : α → Except ε β) :
    (x >>= g).mapError f = x.mapError f >>= fun a => (g a).mapError f := by
  cases x <;> rfl

theorem mapError_mapM {δ : Type} (f : ε → δ) (g : α → Except ε β) (xs : List α) :
    (xs.mapM g).mapError f = xs.mapM fun x => (g x).mapError f := by
  induction xs with
  | nil => rfl
  | cons x xs ih =>
      rw [List.mapM_cons, List.mapM_cons, mapError_bind, ← ih]
      congr 1
      funext y
      exact mapError_bind f (xs.mapM g) _

/-! ## Errors of one kind -/

/-- If a computation fails, the error is one of a kind. -/
def FailsWith (P : ε → Prop) (x : Except ε α) : Prop := ∀ e, x = .error e → P e

namespace FailsWith

variable {P : ε → Prop}

theorem ok (a : α) : FailsWith P (.ok a : Except ε α) := by
  intro e h
  cases h

theorem error {e : ε} (h : P e) : FailsWith P (.error e : Except ε α) := by
  intro e' he
  cases he
  exact h

theorem bind {x : Except ε α} {f : α → Except ε β} (hx : FailsWith P x)
    (hf : ∀ a, FailsWith P (f a)) : FailsWith P (x >>= f) := by
  cases x with
  | error e => exact .error (hx e rfl)
  | ok a => exact hf a

theorem elim {x? : Option α} {y : Except ε β} {f : α → Except ε β} (hy : FailsWith P y)
    (hf : ∀ a, FailsWith P (f a)) : FailsWith P (x?.elim y f) := by
  cases x? with
  | none => exact hy
  | some a => exact hf a

theorem map {x : Except ε α} {f : α → β} (hx : FailsWith P x) : FailsWith P (x.map f) := by
  cases x with
  | error e => exact .error (hx e rfl)
  | ok a => exact .ok (f a)

theorem mapM {f : α → Except ε β} (hf : ∀ a, FailsWith P (f a)) (xs : List α) :
    FailsWith P (xs.mapM f) := by
  induction xs with
  | nil => exact .ok _
  | cons x xs ih =>
      rw [List.mapM_cons]
      exact (hf x).bind fun _ => ih.bind fun _ => .ok _

end FailsWith
end Checks
end CoreWar
