import CoreWar.Opcode

/-!
# Threads

A thread is one point of execution in the arena: three word registers, the
instruction pointer, four condition flags and the cycles it still owes for the
instruction it stands at.
-/

namespace CoreWar

/-- A word register. -/
inductive Register where
  | ax | bx | cx | ip
  deriving DecidableEq, Repr

/-- The condition flags. -/
structure Flags where
  /-- The signed result did not fit. -/
  overflow : Bool := false
  /-- The top bit of the result. -/
  sign : Bool := false
  /-- The result is zero. -/
  zero : Bool := false
  /-- The unsigned result did not fit. -/
  carry : Bool := false
  deriving DecidableEq, Repr, Inhabited

/-- One point of execution. -/
structure Thread where
  ax : UInt16 := 0
  bx : UInt16 := 0
  cx : UInt16 := 0
  ip : UInt16 := 0
  flags : Flags := {}
  /-- Cycles still owed for the instruction at `ip`. -/
  debt : Nat := 0
  deriving DecidableEq, Repr, Inhabited

namespace Thread

/-- The value of a register. -/
def get (t : Thread) : Register → UInt16
  | .ax => t.ax
  | .bx => t.bx
  | .cx => t.cx
  | .ip => t.ip

/-- Gives a register a value. -/
def set (t : Thread) (r : Register) (w : UInt16) : Thread :=
  match r with
  | .ax => { t with ax := w }
  | .bx => { t with bx := w }
  | .cx => { t with cx := w }
  | .ip => { t with ip := w }

/-- Moves the instruction pointer forward around the arena. -/
def advance (t : Thread) (n : UInt16) : Thread := { t with ip := t.ip + n }

/-- Raises or clears overflow and carry together. -/
def setOverflowCarry (t : Thread) (b : Bool) : Thread :=
  { t with flags := { t.flags with overflow := b, carry := b } }

@[simp] theorem get_set (t : Thread) (r q : Register) (w : UInt16) :
    (t.set r w).get q = if r = q then w else t.get q := by
  cases r <;> cases q <;> rfl

@[simp] theorem flags_set (t : Thread) (r : Register) (w : UInt16) :
    (t.set r w).flags = t.flags := by
  cases r <;> rfl

@[simp] theorem debt_set (t : Thread) (r : Register) (w : UInt16) :
    (t.set r w).debt = t.debt := by
  cases r <;> rfl

end Thread

/-- Whether a jump is taken under the given flags; nothing else ever jumps. -/
def Opcode.isTaken (op : Opcode) (f : Flags) : Bool :=
  match op with
  | .jmp => true
  | .jg => !f.zero && f.sign == f.overflow
  | .jge => f.sign == f.overflow
  | .je => f.zero
  | .jne => !f.zero
  | .jl => f.sign != f.overflow
  | .jle => f.zero || f.sign != f.overflow
  | .jc => f.carry
  | .jnc => !f.carry
  | .jo => f.overflow
  | .jno => !f.overflow
  | _ => false

end CoreWar
