import CoreWar.Step

/-!
# Steps and debts

A step neither reads nor changes what its thread owes.  Only a match does: it
sets the debt before it lets the thread make a step.
-/

namespace CoreWar

theorem Alu.debt_multiply (s : Signedness) (w : Width) (v : UInt16) (t : Thread) :
    (Alu.multiply s w v t).debt = t.debt := by
  unfold Alu.multiply
  dsimp only
  cases w with
  | byte => dsimp only; split <;> rfl
  | word => dsimp only; split <;> rfl

theorem Alu.debt_divide? {s : Signedness} {w : Width} {v : UInt16} {t t' : Thread}
    (h : Alu.divide? s w v t = some t') : t'.debt = t.debt := by
  unfold Alu.divide? at h
  split at h
  · cases h
  · cases w with
    | byte => cases h; rfl
    | word => cases h; rfl

namespace Machine

theorem debt_put (m : Machine) (s : Storage) (v : UInt16) (w : Width) :
    (m.put s v w).thread.debt = m.thread.debt := by
  cases s with
  | register r part => cases part <;> exact Thread.debt_set _ _ _
  | immediate a => rfl
  | memory a => cases w <;> rfl

theorem debt_store (m : Machine) (s : Storage) (v : UInt16) (w : Width) :
    (m.store s v w).machine.thread.debt = m.thread.debt := by
  unfold store
  split
  · rfl
  · exact m.debt_put s v w

theorem debt_copy (m : Machine) (a b : Storage) :
    (m.copy a b).machine.thread.debt = m.thread.debt := by
  unfold copy write
  split
  · rfl
  · exact m.debt_put a _ _

theorem debt_swap (m : Machine) (a b : Storage) :
    (m.swap a b).machine.thread.debt = m.thread.debt := by
  unfold swap
  split
  · rfl
  · dsimp only
    rw [debt_put, debt_put]

theorem debt_finish (m : Machine) (dst : Storage) (w : Width) (r : Alu.Result) :
    (m.finish dst w r).machine.thread.debt = m.thread.debt :=
  (m.withFlags r.flags).debt_store dst r.value w

theorem debt_divide (m : Machine) (s : Signedness) (a : Storage) :
    (m.divide s a).machine.thread.debt = m.thread.debt := by
  unfold divide
  dsimp only
  split
  next t ht => exact Alu.debt_divide? ht
  · rfl

theorem debt_applyUnary (m : Machine) (op : Opcode) (a : Storage) :
    (m.applyUnary op a).machine.thread.debt = m.thread.debt := by
  unfold applyUnary
  split
  · exact Alu.debt_multiply _ _ _ _
  · exact Alu.debt_multiply _ _ _ _
  · exact m.debt_divide _ a
  · exact m.debt_divide _ a
  all_goals first | exact m.debt_finish _ _ _ | rfl

theorem debt_applyBinary (m : Machine) (op : Opcode) (a b : Storage) :
    (m.applyBinary op a b).machine.thread.debt = m.thread.debt := by
  unfold applyBinary
  split
  · exact m.debt_copy a b
  · exact m.debt_swap a b
  all_goals first | exact m.debt_finish _ _ _ | rfl

theorem debt_execute (m : Machine) (i : Instruction) :
    (m.execute i).machine.thread.debt = m.thread.debt := by
  unfold execute
  split
  · rfl
  · rfl
  · split
    · rfl
    · dsimp only
      split <;> rfl
  · split
    · rfl
    next a _ => exact m.debt_applyUnary i.opcode a
  · split
    · rfl
    next a _ =>
      split
      · rfl
      next b _ => exact m.debt_applyBinary i.opcode a b

/-- A step keeps the debt, whether it succeeds or not. -/
theorem debt_step (m : Machine) : m.step.machine.thread.debt = m.thread.debt := by
  have hexecute := m.debt_execute (m.arena.decode m.thread.ip)
  unfold step
  dsimp only
  split
  next m' e h =>
    rw [h] at hexecute
    exact hexecute
  next m' h =>
    rw [h] at hexecute
    exact hexecute
  next m' h =>
    rw [h] at hexecute
    exact hexecute

end Machine
end CoreWar
