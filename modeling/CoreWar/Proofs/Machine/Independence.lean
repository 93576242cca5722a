import CoreWar.Proofs.Machine.Likeness

/-!
# Independent steps

A step does not look beyond its footprint and does not write beyond it either.  So
two threads whose next steps have no cell in common do not notice each other: it does
not matter which of them goes first.

The footprint of a step is taken in the arena before both steps.  That the first step
leaves the footprint of the second one as it is, addresses held in words included, is
part of what is shown (`step_withArena`).
-/

namespace CoreWar

/-- Cells that agree inside a set of addresses.  Outside of it each arena keeps what it
had. -/
def Likeness.inside (F : List UInt16) (A B : Arena) : Likeness where
  distance := 0
  InUse x := x ∈ F
  Alike x c d := (x ∈ F → d = c) ∧ (x ∉ F → c = A.cell x ∧ d = B.cell x)
  alike_refl := by
    intro x c hx
    constructor
    · intro _
      rfl
    · intro hout
      exact absurd hx hout
  byte_eq := by
    intro x c d hx h
    rw [h.1 hx]

namespace Machine

/-- The machine in another arena. -/
def withArena (m : Machine) (B : Arena) : Machine := ⟨m.thread, B, m.pid⟩

variable {m : Machine} {B : Arena}

theorem relates_inside (h : ∀ x ∈ m.footprint, B.cell x = m.arena.cell x) :
    (Likeness.inside m.footprint m.arena B).Relates m (m.withArena B) := by
  apply (Likeness.relates_iff_of_distance_eq_zero rfl).mpr
  refine ⟨rfl, rfl, ?_⟩
  intro x
  constructor
  · intro hx
    exact h x hx
  · intro _
    exact ⟨rfl, rfl⟩

/-- In an arena with the same footprint the step comes to the same, and it leaves
everything outside of the footprint alone. -/
theorem step_withArena (h : ∀ x ∈ m.footprint, B.cell x = m.arena.cell x) :
    (m.withArena B).step.result = m.step.result ∧
      (m.withArena B).step.machine.thread = m.step.machine.thread ∧
      (∀ x ∈ m.footprint,
        (m.withArena B).step.machine.arena.cell x = m.step.machine.arena.cell x) ∧
      ∀ x ∉ m.footprint, (m.withArena B).step.machine.arena.cell x = B.cell x := by
  have hmatches : (Likeness.inside m.footprint m.arena B).Matches m.step (m.withArena B).step := by
    apply (relates_inside h).matches_step
    · intro x hx
      exact hx
    · exact .inl rfl
  obtain ⟨hthread, -, halike⟩ :=
    (Likeness.relates_iff_of_distance_eq_zero rfl).mp hmatches.machine
  refine ⟨hmatches.result_eq, hthread, ?_, ?_⟩
  · intro x hx
    exact (halike x).1 hx
  · intro x hx
    exact ((halike x).2 hx).2

theorem cell_step_of_notMem_footprint {x : UInt16} (hx : x ∉ m.footprint) :
    m.step.machine.arena.cell x = m.arena.cell x := by
  have hsame : ∀ y ∈ m.footprint, m.arena.cell y = m.arena.cell y := by
    intro y _
    rfl
  exact (step_withArena hsame).2.2.2 x hx

end Machine

/-- What two steps come to: the arena they leave behind, and of each of them the
thread and the result. -/
structure Joint where
  arena : Arena
  first : Thread × Except Fault Instruction
  second : Thread × Except Fault Instruction

/-- The same with the names of the two exchanged. -/
def Joint.swap (j : Joint) : Joint := ⟨j.arena, j.second, j.first⟩

/-- The step of one thread and after it the step of another one, in one arena. -/
def stepBoth (A : Arena) (t u : Thread) (p q : UInt8) : Joint :=
  let o := (Machine.mk t A p).step
  let o' := (Machine.mk u o.machine.arena q).step
  ⟨o'.machine.arena, (o.machine.thread, o.result), (o'.machine.thread, o'.result)⟩

/-- Steps without a cell in common can be taken in either order. -/
theorem stepBoth_comm (A : Arena) (t u : Thread) (p q : UInt8)
    (h : ∀ x ∈ (Machine.mk t A p).footprint, x ∉ (Machine.mk u A q).footprint) :
    stepBoth A t u p q = (stepBoth A u t q p).swap := by
  let m : Machine := ⟨t, A, p⟩
  let n : Machine := ⟨u, A, q⟩
  have hmout : ∀ x ∉ m.footprint, m.step.machine.arena.cell x = A.cell x := by
    intro x hx
    exact Machine.cell_step_of_notMem_footprint hx
  have hnout : ∀ x ∉ n.footprint, n.step.machine.arena.cell x = A.cell x := by
    intro x hx
    exact Machine.cell_step_of_notMem_footprint hx
  have hnafter : ∀ x ∈ n.footprint, m.step.machine.arena.cell x = A.cell x := by
    intro x hx
    exact hmout x fun hm => h x hm hx
  have hmafter : ∀ x ∈ m.footprint, n.step.machine.arena.cell x = A.cell x := by
    intro x hx
    exact hnout x (h x hx)
  obtain ⟨hnresult, hnthread, hnin, hnkeep⟩ := Machine.step_withArena (m := n) hnafter
  obtain ⟨hmresult, hmthread, hmin, hmkeep⟩ := Machine.step_withArena (m := m) hmafter
  have harena : (n.withArena m.step.machine.arena).step.machine.arena =
      (m.withArena n.step.machine.arena).step.machine.arena := by
    ext1 x
    by_cases hn : x ∈ n.footprint
    · have hm : x ∉ m.footprint := fun hm => h x hm hn
      rw [hnin x hn, hmkeep x hm]
    · rw [hnkeep x hn]
      by_cases hm : x ∈ m.footprint
      · rw [hmin x hm]
      · rw [hmkeep x hm, hmout x hm, hnout x hn]
  have hfirst : (m.step.machine.thread, m.step.result) =
      ((m.withArena n.step.machine.arena).step.machine.thread,
        (m.withArena n.step.machine.arena).step.result) := by
    rw [hmthread, hmresult]
  have hsecond : ((n.withArena m.step.machine.arena).step.machine.thread,
        (n.withArena m.step.machine.arena).step.result) =
      (n.step.machine.thread, n.step.result) := by
    rw [hnthread, hnresult]
  have hjoint : stepBoth A t u p q = ⟨(n.withArena m.step.machine.arena).step.machine.arena,
      (m.step.machine.thread, m.step.result),
      ((n.withArena m.step.machine.arena).step.machine.thread,
        (n.withArena m.step.machine.arena).step.result)⟩ := rfl
  rw [hjoint, harena, hfirst, hsecond]
  rfl

/-- A program that copies `ax` to the cells 8 and 9, and behind it one that counts up
the cell that `bx` points to. -/
def neighbours : Arena := Arena.empty.writeBytes 0 1 [0x0A, 0x6D, 0, 8, 0x44, 0x0A]

theorem stepBoth_comm_neighbours :
    (∀ x ∈ (Machine.mk { ax := 0x0102 } neighbours 1).footprint,
        x ∉ (Machine.mk { bx := 6, ip := 4 } neighbours 2).footprint) ∧
      stepBoth neighbours { ax := 0x0102 } { bx := 6, ip := 4 } 1 2 =
        (stepBoth neighbours { bx := 6, ip := 4 } { ax := 0x0102 } 2 1).swap ∧
      (stepBoth neighbours { ax := 0x0102 } { bx := 6, ip := 4 } 1 2).arena.cell 6 = ⟨1, 2⟩ ∧
      (stepBoth neighbours { ax := 0x0102 } { bx := 6, ip := 4 } 1 2).arena.cell 9 = ⟨2, 1⟩ := by
  have hdisjoint : ∀ x ∈ (Machine.mk { ax := 0x0102 } neighbours 1).footprint,
      x ∉ (Machine.mk { bx := 6, ip := 4 } neighbours 2).footprint := by
    have hfirst : (Machine.mk { ax := 0x0102 } neighbours 1).footprint = [0, 1, 2, 3, 8, 9] := by
      decide +kernel
    have hsecond : (Machine.mk { bx := 6, ip := 4 } neighbours 2).footprint = [4, 5, 6, 7] := by
      decide +kernel
    simp [hfirst, hsecond]
  exact ⟨hdisjoint, stepBoth_comm _ _ _ _ _ hdisjoint, by decide +kernel, by decide +kernel⟩

end CoreWar
