import CoreWar.Proofs.Machine.Likeness

/-!
# Position independence

Programs are placed at random, so what they do should not depend on where they
stand.  A step of an instruction that names no address does not: in the arena turned
by any distance, the same instruction is executed and the same result is reached, at
the distance.  The ends of the arena make no difference, because every address is
reached from the instruction pointer around the ring.
-/

namespace CoreWar

/-- The arena turned by a distance: what was at an address is found at the address
moved by it. -/
def Arena.rotate (m : Arena) (k : UInt16) : Arena :=
  ⟨Vector.ofFn fun i => m.cell (UInt16.ofFin i - k)⟩

@[simp] theorem Arena.cell_rotate (m : Arena) (k a : UInt16) :
    (m.rotate k).cell a = m.cell (a - k) := by
  simp [rotate, cell]

namespace Machine

/-- The machine moved by a distance, together with everything in the arena. -/
def rotate (m : Machine) (k : UInt16) : Machine :=
  ⟨m.thread.advance k, m.arena.rotate k, m.pid⟩

end Machine

/-- Cells at a distance that are the same. -/
def Likeness.rotation (k : UInt16) : Likeness where
  distance := k
  InUse _ := True
  Alike _ c d := d = c
  alike_refl _ _ := rfl
  byte_eq := by
    intro x c d _ h
    rw [h]

namespace Machine

variable {m n : Machine} {k : UInt16}

theorem relates_rotation_iff : (Likeness.rotation k).Relates m n ↔ n = m.rotate k := by
  constructor
  · intro h
    obtain ⟨hthread, hpid, halike⟩ := h
    obtain ⟨t, A, pid⟩ := n
    dsimp only at hthread hpid halike
    have harena : A = m.arena.rotate k := by
      ext1 a
      have hcell : A.cell (a - k + k) = m.arena.cell (a - k) := halike (a - k)
      rwa [UInt16.sub_add_cancel, ← Arena.cell_rotate] at hcell
    rw [hthread, hpid, harena]
    rfl
  · rintro rfl
    refine ⟨rfl, rfl, ?_⟩
    intro x
    have hcell : (m.arena.rotate k).cell (x + k) = m.arena.cell x := by
      rw [Arena.cell_rotate, UInt16.add_sub_cancel]
    exact hcell

theorem eq_of_matches_rotation {α : Type} {o o' : Outcome α}
    (h : (Likeness.rotation k).Matches o o') : o' = ⟨o.machine.rotate k, o.result⟩ := by
  obtain ⟨n, result⟩ := o'
  obtain ⟨hmachine, hresult⟩ := h
  dsimp only at hmachine hresult
  rw [relates_rotation_iff.mp hmachine, hresult]

/-- An instruction that names no address does the same wherever it stands. -/
theorem step_rotate (m : Machine) (k : UInt16)
    (h : (m.arena.decode m.thread.ip).IsRelocatable) :
    (m.rotate k).step = ⟨m.step.machine.rotate k, m.step.result⟩ := by
  have hrelates : (Likeness.rotation k).Relates m (m.rotate k) := relates_rotation_iff.mpr rfl
  have hmatches : (Likeness.rotation k).Matches m.step (m.rotate k).step := by
    apply hrelates.matches_step
    · intro x _
      trivial
    · exact .inr h
  exact eq_of_matches_rotation hmatches

/-- A thread at a sum of two cells.  The word of the instruction gives the distance to
the first, and `ax` gives the distance to the second. -/
def sumAtDistances : Machine where
  thread := { ax := 8 }
  arena := Arena.empty.writeBytes 0 1 [0x13, 0x9D, 0, 6, 0, 0, 30, 0, 12]
  pid := 1

/-- Turned back by two cells, the instruction runs around the end of the arena. -/
theorem step_rotate_sumAtDistances :
    (sumAtDistances.arena.decode sumAtDistances.thread.ip).IsRelocatable ∧
      (sumAtDistances.rotate 0xFFFE).thread.ip = 0xFFFE ∧
      (sumAtDistances.rotate 0xFFFE).step.result =
        .ok ⟨.add, .relative, .relative, .pimd, .pax⟩ ∧
      (sumAtDistances.rotate 0xFFFE).step.machine.arena.byte 4 = 42 ∧
      (sumAtDistances.rotate 0xFFFE).step.machine.thread.ip = 2 := by
  have hdecode : sumAtDistances.arena.decode sumAtDistances.thread.ip =
      ⟨.add, .relative, .relative, .pimd, .pax⟩ := rfl
  have hrelocatable : (sumAtDistances.arena.decode sumAtDistances.thread.ip).IsRelocatable := by
    rw [hdecode]
    constructor
    · intro p _
      cases p <;> decide
    · intro p _ _
      cases p <;> rfl
    · intro _
      rfl
  have hresult : sumAtDistances.step.result =
      .ok ⟨.add, .relative, .relative, .pimd, .pax⟩ := rfl
  have hsum : sumAtDistances.step.machine.arena.byte 6 = 42 := by decide +kernel
  have hip : sumAtDistances.step.machine.thread.ip = 4 := by decide +kernel
  have hstep := step_rotate sumAtDistances 0xFFFE hrelocatable
  have hbyte : (sumAtDistances.step.machine.arena.rotate 0xFFFE).byte 4 =
      sumAtDistances.step.machine.arena.byte 6 := by
    rw [Arena.byte, Arena.cell_rotate]
    rfl
  rw [hstep]
  refine ⟨hrelocatable, rfl, hresult, hbyte.trans hsum, ?_⟩
  rw [rotate, Thread.advance, hip]
  rfl

end Machine
end CoreWar
