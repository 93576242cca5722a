import CoreWar.Random.Counter

/-!
# What is drawn

Whatever a source gives, a number drawn below `n` is below `n`, and a shuffled
list has the items of the list, each as often.

A draw is repeated until a word is accepted, but not for ever.  Where a source
`Supplies` numbers every draw comes to an end, and so does all that is made of
draws.
-/

namespace CoreWar
namespace Random

variable {σ α β : Type}

theorem bind_eq_some {d : Draw σ α} {f : α → Draw σ β} {s s' : σ} {b : β} :
    (d >>= f) s = some (b, s') ↔ ∃ a t, d s = some (a, t) ∧ f a t = some (b, s') := by
  cases h : d s with
  | none => simp [bind, StateT.bind, h]
  | some x =>
      obtain ⟨a, t⟩ := x
      simp only [bind, StateT.bind, h, Option.bind_some, Option.some.injEq, Prod.mk.injEq]
      constructor
      · intro hf
        exact ⟨a, t, ⟨rfl, rfl⟩, hf⟩
      · rintro ⟨_, _, ⟨rfl, rfl⟩, hf⟩
        exact hf

/-- A repeated draw ends with a result that was accepted. -/
theorem accept?_of_retry {draw : σ → α × σ} {accept? : α → Option Nat} {n : Nat} {s s' : σ}
    {k : Nat} (h : retry draw accept? n s = some (k, s')) : ∃ x, accept? x = some k := by
  induction n generalizing s with
  | zero => cases h
  | succ n ih =>
      unfold retry at h
      dsimp only at h
      split at h
      next k' hk =>
        cases h
        exact ⟨_, hk⟩
      · exact ih h

/-- The first word is enough if it is accepted. -/
theorem retry_of_accept? {draw : σ → α × σ} {accept? : α → Option Nat} {n k : Nat} {s : σ}
    (h : accept? (draw s).1 = some k) : retry draw accept? (n + 1) s = some (k, (draw s).2) := by
  unfold retry
  dsimp only
  rw [h]

/-- What every draw for an item promises holds of all items drawn. -/
theorem forall_mem_of_mapM_eq_some {f : α → Draw σ β} {P : β → Prop}
    (hf : ∀ a s b s', f a s = some (b, s') → P b) {xs : List α} {ys : List β} {s s' : σ}
    (h : xs.mapM f s = some (ys, s')) : ∀ y ∈ ys, P y := by
  induction xs generalizing ys s with
  | nil =>
      cases h
      simp
  | cons x xs ih =>
      rw [List.mapM_cons] at h
      obtain ⟨y, t, hy, h⟩ := bind_eq_some.mp h
      obtain ⟨zs, u, hzs, h⟩ := bind_eq_some.mp h
      cases h
      intro z hz
      rcases List.mem_cons.mp hz with rfl | hz
      · exact hf _ _ _ _ hy
      · exact ih hzs z hz

/-- What every draw for an item leaves as it is stays as it is for all items. -/
theorem map_eq_of_mapM_eq_some {f : α → Draw σ β} {g : β → α}
    (hf : ∀ a s b s', f a s = some (b, s') → g b = a) {xs : List α} {ys : List β} {s s' : σ}
    (h : xs.mapM f s = some (ys, s')) : ys.map g = xs := by
  induction xs generalizing ys s with
  | nil =>
      cases h
      rfl
  | cons x xs ih =>
      rw [List.mapM_cons] at h
      obtain ⟨y, t, hy, h⟩ := bind_eq_some.mp h
      obtain ⟨zs, u, hzs, h⟩ := bind_eq_some.mp h
      cases h
      rw [List.map_cons, hf _ _ _ _ hy, ih hzs]

/-- A computation has a result wherever a source is in a good state, and leaves it in one. -/
def Ends (good : σ → Prop) (d : Draw σ α) : Prop :=
  ∀ s, good s → ∃ a s', d s = some (a, s') ∧ good s'

namespace Ends

variable {good : σ → Prop}

theorem pure (a : α) : Ends good (Pure.pure a : Draw σ α) := fun s hs => ⟨a, s, rfl, hs⟩

theorem bind {d : Draw σ α} {f : α → Draw σ β} (hd : Ends good d) (hf : ∀ a, Ends good (f a)) :
    Ends good (d >>= f) := by
  intro s hs
  obtain ⟨a, t, ha, ht⟩ := hd s hs
  obtain ⟨b, u, hb, hu⟩ := hf a t ht
  exact ⟨b, u, bind_eq_some.mpr ⟨a, t, ha, hb⟩, hu⟩

theorem mapM {f : α → Draw σ β} (hf : ∀ a, Ends good (f a)) (xs : List α) :
    Ends good (xs.mapM f) := by
  induction xs with
  | nil => exact .pure []
  | cons x xs ih =>
      rw [List.mapM_cons]
      exact (hf x).bind fun _ => ih.bind fun _ => .pure _

end Ends

variable [Source σ]

theorem below64_lt {n k : Nat} {s s' : σ} (h : below64 n s = some (k, s')) : k < n := by
  obtain ⟨x, hx⟩ := accept?_of_retry h
  exact lt_of_scaled? x.toNat_lt hx

theorem swapIfInBounds_perm (xs : Array α) (i j : Nat) : (xs.swapIfInBounds i j).Perm xs := by
  rw [Array.swapIfInBounds_def]
  split
  · split
    · exact Array.swap_perm _ _
    · exact Array.Perm.refl xs
  · exact Array.Perm.refl xs

theorem shuffleFirst_perm {xs ys : Array α} {n : Nat} {s s' : σ}
    (h : shuffleFirst xs n s = some (ys, s')) : ys.Perm xs := by
  induction xs, n using shuffleFirst.induct generalizing s with
  | case1 xs =>
      cases h
      exact Array.Perm.refl _
  | case2 xs =>
      cases h
      exact Array.Perm.refl _
  | case3 xs n ih =>
      unfold shuffleFirst at h
      obtain ⟨i, t, -, h⟩ := bind_eq_some.mp h
      exact (ih i h).trans (swapIfInBounds_perm xs (n + 1) i)

theorem shuffle_perm {xs ys : List α} {s s' : σ} (h : shuffle xs s = some (ys, s')) :
    ys.Perm xs := by
  obtain ⟨zs, t, hzs, h⟩ := bind_eq_some.mp h
  cases h
  exact Array.perm_iff_toList_perm.mp (shuffleFirst_perm hzs)

/-- A source supplies numbers from good states: no draw runs out of attempts. -/
structure Supplies (good : σ → Prop) : Prop where
  below32 : ∀ n, 0 < n → Ends good (below32 n)
  below64 : ∀ n, 0 < n → Ends good (below64 n)

namespace Supplies

variable {good : σ → Prop}

theorem shuffleFirst (h : Supplies good) (xs : Array α) (n : Nat) :
    Ends good (shuffleFirst xs n : Draw σ (Array α)) := by
  induction xs, n using shuffleFirst.induct with
  | case1 xs => exact .pure xs
  | case2 xs => exact .pure xs
  | case3 xs n ih =>
      unfold Random.shuffleFirst
      exact (h.below32 _ (Nat.succ_pos _)).bind ih

theorem shuffle (h : Supplies good) (xs : List α) : Ends good (shuffle xs : Draw σ (List α)) :=
  (h.shuffleFirst xs.toArray xs.length).bind fun _ => .pure _

end Supplies

theorem scaled?_zero {bits n : Nat} (h : 0 < n) : scaled? bits n 0 = some 0 := by
  have hroom : 0 < n <<< (bits - 1 - n.log2) := by
    rw [Nat.shiftLeft_eq]
    exact Nat.mul_pos h (Nat.two_pow_pos _)
  simp [scaled?, hroom]

/-- A source that always gives zero supplies numbers. -/
theorem supplies_zero : Supplies fun s : Counter => s = ⟨0, 0⟩ where
  below32 := by
    rintro n hn _ rfl
    exact ⟨0, ⟨0, 0⟩, retry_of_accept? (scaled?_zero hn), rfl⟩
  below64 := by
    rintro n hn _ rfl
    exact ⟨0, ⟨0, 0⟩, retry_of_accept? (scaled?_zero hn), rfl⟩

end Random
end CoreWar
