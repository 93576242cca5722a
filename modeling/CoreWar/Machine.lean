import CoreWar.Arena
import CoreWar.Thread
import CoreWar.Width

/-!
# The machine

A machine is one thread in the arena, acting for a player.  An operand of its
current instruction resolves to a storage: a register or a part of one, the
word inside the instruction, or a cell of memory.  Storage is read and written
at a width; memory takes the width that is asked for, everything else has a
width of its own.

Actions report the machine they leave behind together with a value or the fault
that ended the thread, because an action may have changed the machine before it
failed.
-/

namespace CoreWar

/-- Why a thread ends. -/
inductive Fault where
  | invalidLocation
  | invalidArgument (number : UInt8)
  | readOnly
  | divideByZero
  | dataExecuted
  deriving DecidableEq, Repr

/-- The wording of a fault. -/
def Fault.message : Fault → String
  | invalidLocation => "invalid location"
  | invalidArgument n => s!"invalid argument number {n.toNat}"
  | readOnly => "write to read-only location"
  | divideByZero => "division by zero"
  | dataExecuted => "executed data"

/-- The part of a register that an operand names. -/
inductive Part where
  | low
  | high
  | full
  deriving DecidableEq, Repr

/-- Where the value of an operand is kept. -/
inductive Storage where
  | register (r : Register) (part : Part)
  /-- The word inside the instruction, by its address. -/
  | immediate (address : UInt16)
  /-- One or two cells from an address on. -/
  | memory (address : UInt16)
  deriving DecidableEq, Repr

namespace Storage

/-- Only the instruction pointer refuses writes. -/
def isReadOnly : Storage → Bool
  | register .ip _ => true
  | _ => false

/-- The width a storage has by itself. -/
def width : Storage → Width
  | register _ .full => .word
  | register _ _ => .byte
  | immediate _ => .word
  | memory _ => .byte

/-- Whether a storage lies in the arena. -/
def isMemory : Storage → Bool
  | register _ _ => false
  | immediate _ | memory _ => true

/-- Whether an operation with two operands works on bytes: the destination
decides, but a memory destination gives way to a wider source. -/
def isByteOperation (dst src : Storage) : Bool :=
  dst.width == .byte && !(dst.isMemory && src.width != .byte)

/-- The width of an operation with two operands. -/
def operationWidth (dst src : Storage) : Width :=
  if isByteOperation dst src then .byte else .word

end Storage

/-- A thread in the arena, acting for a player. -/
structure Machine where
  thread : Thread
  arena : Arena
  pid : UInt8

/-- What an action leaves behind and what it came to. -/
structure Outcome (α : Type) where
  machine : Machine
  result : Except Fault α

namespace Machine

/-- Where an operand of an instruction at the instruction pointer is kept. -/
def storage (m : Machine) (i : Instruction) (p : Position) : Except Fault Storage :=
  let t := m.thread
  let mode := i.mode p
  let immediate := Arena.immediateAddress i t.ip p
  match i.location p with
  | .al => .ok (.register .ax .low)
  | .ah => .ok (.register .ax .high)
  | .bl => .ok (.register .bx .low)
  | .bh => .ok (.register .bx .high)
  | .cl => .ok (.register .cx .low)
  | .ch => .ok (.register .cx .high)
  | .ax => .ok (.register .ax .full)
  | .bx => .ok (.register .bx .full)
  | .cx => .ok (.register .cx .full)
  | .ip => .ok (.register .ip .full)
  | .pax => .ok (.memory (mode.address t.ip t.ax))
  | .pbx => .ok (.memory (mode.address t.ip t.bx))
  | .pcx => .ok (.memory (mode.address t.ip t.cx))
  | .imd => .ok (.immediate immediate)
  | .pimd => .ok (.memory (mode.address t.ip (m.arena.word immediate)))
  | .invalid => .error .invalidLocation

/-- Where the operand with a given number of the current instruction is kept. -/
def resolve (m : Machine) (number : UInt8) : Except Fault Storage :=
  match Position.ofNumber? number with
  | some p => m.storage (m.arena.decode m.thread.ip) p
  | none => .error (.invalidArgument number)

/-- The value of a storage at a width.  Register halves are bytes at any
width. -/
def read (m : Machine) (s : Storage) (w : Width) : UInt16 :=
  match s with
  | .register r .low => (Word.low (m.thread.get r)).toUInt16
  | .register r .high => (Word.high (m.thread.get r)).toUInt16
  | .register r .full => w.truncate (m.thread.get r)
  | .immediate a => w.truncate (m.arena.word a)
  | .memory a =>
    match w with
    | .byte => (m.arena.byte a).toUInt16
    | .word => m.arena.word a

/-- The value of a storage at its own width. -/
def value (m : Machine) (s : Storage) : UInt16 := m.read s s.width

/-- Keeps a value in a storage.  A register half takes the low byte and spares
its other half; an immediate is always written as a word. -/
def put (m : Machine) (s : Storage) (v : UInt16) (w : Width) : Machine :=
  let v := w.truncate v
  match m with
  | ⟨t, a, pid⟩ =>
    match s with
    | .register r .low => ⟨t.set r (Word.ofBytes (Word.high (t.get r)) (Word.low v)), a, pid⟩
    | .register r .high => ⟨t.set r (Word.ofBytes (Word.low v) (Word.low (t.get r))), a, pid⟩
    | .register r .full => ⟨t.set r v, a, pid⟩
    | .immediate x => ⟨t, a.writeWord x v pid, pid⟩
    | .memory x =>
      match w with
      | .byte => ⟨t, a.writeByte x (Word.low v) pid, pid⟩
      | .word => ⟨t, a.writeWord x v pid, pid⟩

/-- The value that a storage holds after a write: a register half keeps a byte
only. -/
def stored (s : Storage) (v : UInt16) (w : Width) : UInt16 :=
  match s with
  | .register _ .low | .register _ .high => (Word.low (w.truncate v)).toUInt16
  | _ => w.truncate v

/-- Writes a value at a width and gives the value as it is stored. -/
def write (m : Machine) (s : Storage) (v : UInt16) (w : Width) : Outcome UInt16 :=
  if s.isReadOnly then ⟨m, .error .readOnly⟩ else ⟨m.put s v w, .ok (stored s v w)⟩

/-- Writes a value at a width. -/
def store (m : Machine) (s : Storage) (v : UInt16) (w : Width) : Outcome Unit :=
  if s.isReadOnly then ⟨m, .error .readOnly⟩ else ⟨m.put s v w, .ok ()⟩

/-- Copies a source into a destination at the source's width. -/
def copy (m : Machine) (dst src : Storage) : Outcome UInt16 :=
  m.write dst (m.value src) src.width

/-- Exchanges two storages.  Both are read first, each at its own width, and
each is written at the width of the other. -/
def swap (m : Machine) (a b : Storage) : Outcome Unit :=
  if a.isReadOnly || b.isReadOnly then
    ⟨m, .error .readOnly⟩
  else
    let va := m.value a
    let vb := m.value b
    ⟨(m.put a vb b.width).put b va a.width, .ok ()⟩

/-- Replaces the thread. -/
def withThread (m : Machine) (t : Thread) : Machine :=
  match m with
  | ⟨_, a, pid⟩ => ⟨t, a, pid⟩

/-- Replaces the flags. -/
def withFlags (m : Machine) (f : Flags) : Machine :=
  match m with
  | ⟨t, a, pid⟩ => ⟨{ t with flags := f }, a, pid⟩

end Machine
end CoreWar
