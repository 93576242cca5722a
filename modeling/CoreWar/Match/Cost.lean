import CoreWar.Opcode

/-!
# Cycle costs

What every operation costs in cycles: at least one, and one unless the match
says otherwise.
-/

namespace CoreWar

/-- A positive number of cycles. -/
structure Cost where
  cycles : Nat
  pos : 0 < cycles
  deriving DecidableEq, Repr

namespace Cost

/-- The cost of an operation that nobody has given one. -/
def one : Cost := ⟨1, by decide⟩

instance : Inhabited Cost := ⟨one⟩

end Cost

/-- The cost of every operation. -/
structure CostTable where
  costs : Vector Cost 32
  deriving DecidableEq, Repr

namespace CostTable

/-- The table in which every operation costs one cycle. -/
def ones : CostTable := ⟨Vector.replicate 32 Cost.one⟩

instance : Inhabited CostTable := ⟨ones⟩

/-- The cost of an operation. -/
def cost (t : CostTable) (op : Opcode) : Nat := t.costs[op.index].cycles

/-- Gives an operation a cost. -/
def set (t : CostTable) (op : Opcode) (c : Cost) : CostTable :=
  ⟨t.costs.set op.index.val c op.index.isLt⟩

theorem cost_pos (t : CostTable) (op : Opcode) : 0 < t.cost op := t.costs[op.index].pos

@[simp] theorem cost_ones (op : Opcode) : ones.cost op = 1 := by
  simp [cost, ones, Cost.one]

@[simp] theorem cost_set (t : CostTable) (op other : Opcode) (c : Cost) :
    (t.set op c).cost other = if op = other then c.cycles else t.cost other := by
  by_cases h : op = other
  · subst h
    simp [cost, set]
  · have hne : op.index.val ≠ other.index.val := fun e =>
      h (Opcode.index_injective (Fin.ext e))
    simp [cost, set, h, hne]

end CostTable
end CoreWar
