import CoreWar.Instruction

/-!
# The arena

The arena is a ring of 65536 cells.  A cell holds a byte and the number of the
player who wrote it last; zero stands for nobody.  Addresses are words, so every
access stays inside the ring.

`Arena.cell` is the view through which the arena is reasoned about: two arenas
are equal when all their cells are, and `cell_writeByte` says what a write does.
-/

namespace CoreWar

/-- A byte of the arena and the player who wrote it. -/
structure Cell where
  byte : UInt8 := 0
  owner : UInt8 := 0
  deriving DecidableEq, Repr, Inhabited

/-- The ring of cells in which programs live and fight. -/
structure Arena where
  cells : Vector Cell UInt16.size

/-- Why a program cannot be loaded. -/
inductive LoadError where
  | programTooLarge (size available : Nat)
  deriving DecidableEq, Repr

/-- The wording of a loading error. -/
def LoadError.message : LoadError → String
  | programTooLarge size available =>
    s!"program size {size} exceeds available space {available}"

namespace Arena

/-- The number of cells. -/
def size : Nat := UInt16.size

/-- The arena in which nobody has written anything. -/
def empty : Arena := ⟨Vector.replicate UInt16.size {}⟩

instance : Inhabited Arena := ⟨empty⟩

/-- The cell at an address. -/
def cell (m : Arena) (a : UInt16) : Cell := m.cells[a.toFin]

/-- The byte at an address. -/
def byte (m : Arena) (a : UInt16) : UInt8 := (m.cell a).byte

/-- The player who wrote an address last. -/
def owner (m : Arena) (a : UInt16) : UInt8 := (m.cell a).owner

/-- The word at an address; its second byte may lie at address zero. -/
def word (m : Arena) (a : UInt16) : UInt16 := Word.ofBytes (m.byte a) (m.byte (a + 1))

/-- Writes a byte for a player. -/
def writeByte (m : Arena) (a : UInt16) (b pid : UInt8) : Arena :=
  ⟨m.cells.set a.toNat ⟨b, pid⟩ a.toNat_lt_size⟩

/-- Writes a word for a player. -/
def writeWord (m : Arena) (a : UInt16) (w : UInt16) (pid : UInt8) : Arena :=
  (m.writeByte a (Word.high w) pid).writeByte (a + 1) (Word.low w) pid

/-- Writes bytes for a player at an address and those after it. -/
def writeBytes (m : Arena) (a : UInt16) (pid : UInt8) : List UInt8 → Arena
  | [] => m
  | b :: bs => (m.writeByte a b pid).writeBytes (a + 1) pid bs

/-- Puts a program at an address, provided that it ends inside the arena. -/
def load (m : Arena) (a : UInt16) (program : List UInt8) (pid : UInt8) :
    Except LoadError Arena :=
  if a.toNat + program.length ≤ size then
    .ok (m.writeBytes a pid program)
  else
    .error (.programTooLarge program.length (size - a.toNat))

/-- The number of cells that a player wrote last. -/
def ownedBy (m : Arena) (pid : UInt8) : Nat := m.cells.toArray.countP (·.owner == pid)

/-- The header of the instruction at an address. -/
def decode (m : Arena) (a : UInt16) : Instruction :=
  Instruction.ofHeader (m.byte a) (m.byte (a + 1))

/-- The operation of the instruction at an address. -/
def opcodeAt (m : Arena) (a : UInt16) : Opcode := Opcode.ofCode (m.byte a / 4)

/-- The address of the word that belongs to an operand of the instruction at an
address. -/
def immediateAddress (i : Instruction) (a : UInt16) (p : Position) : UInt16 :=
  a + i.immediateOffset p

@[ext] theorem ext {m n : Arena} (h : ∀ a, m.cell a = n.cell a) : m = n := by
  obtain ⟨m⟩ := m
  obtain ⟨n⟩ := n
  congr
  apply Vector.ext
  intro i hi
  simpa [cell, Nat.mod_eq_of_lt hi] using h (UInt16.ofNat i)

@[simp] theorem cell_empty (a : UInt16) : empty.cell a = {} := by
  simp [cell, empty]

/-- A write changes the cell it names and no other. -/
@[simp] theorem cell_writeByte (m : Arena) (a c : UInt16) (b pid : UInt8) :
    (m.writeByte a b pid).cell c = if a = c then ⟨b, pid⟩ else m.cell c := by
  by_cases h : a = c
  · subst h
    simp [cell, writeByte]
  · have hne : a.toNat ≠ c.toNat := fun e => h (UInt16.toNat_inj.mp e)
    simp [cell, writeByte, hne, h]

end Arena
end CoreWar
