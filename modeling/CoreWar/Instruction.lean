import CoreWar.Opcode
import CoreWar.Location
import CoreWar.Word

/-!
# Instructions

An instruction is a header of two bytes followed by one word for each operand
whose location has an immediate, in operand order:

    first byte    operation (6 bits), destination mode (1), source mode (1)
    second byte   source location (4 bits), destination location (4)

An instruction is therefore two, four or six bytes long.  Reading a header
never fails; writing one fails for a location that its position does not admit.
-/

namespace CoreWar

/-- What a header says. -/
structure Instruction where
  opcode : Opcode
  dstMode : AccessMode
  srcMode : AccessMode
  dst : Location
  src : Location
  deriving DecidableEq, Repr, Inhabited

/-- Why an instruction has no encoding. -/
inductive EncodeError where
  | illegalLocation (location : Location) (position : Position)
  | immediateCount (expected found : Nat)
  deriving DecidableEq, Repr

/-- The name under which a position appears in messages. -/
def Position.name : Position → String
  | .destination => "Destination"
  | .source => "Source"

/-- The wording of an encoding error. -/
def EncodeError.message : EncodeError → String
  | illegalLocation l p => s!"location {l.name} cannot be used as {p.name}"
  | immediateCount expected found => s!"expected {expected} immediates, found {found}"

namespace Instruction

/-- The location of an operand. -/
def location (i : Instruction) : Position → Location
  | .destination => i.dst
  | .source => i.src

/-- The access mode of an operand. -/
def mode (i : Instruction) : Position → AccessMode
  | .destination => i.dstMode
  | .source => i.srcMode

/-- Reads a header from its two bytes. -/
def ofHeader (b0 b1 : UInt8) : Instruction where
  opcode := Opcode.ofCode (b0 / 4)
  dstMode := AccessMode.ofBit (b0 / 2 % 2 == 1)
  srcMode := AccessMode.ofBit (b0 % 2 == 1)
  dst := Location.ofNibble .destination b1
  src := Location.ofNibble .source (b1 / 16)

/-- Writes a header; the destination's location is looked at first. -/
def header (i : Instruction) : Except EncodeError (List UInt8) :=
  match i.dst.nibble? .destination, i.src.nibble? .source with
  | none, _ => .error (.illegalLocation i.dst .destination)
  | some _, none => .error (.illegalLocation i.src .source)
  | some n1, some n2 =>
    .ok [i.opcode.code * 4 + i.dstMode.bit * 2 + i.srcMode.bit, n2 * 16 + n1]

/-- The number of words that follow the header. -/
def immediateCount (i : Instruction) : Nat :=
  i.dst.hasImmediate.toNat + i.src.hasImmediate.toNat

/-- The length of an instruction in bytes. -/
def size (i : Instruction) : UInt16 := UInt16.ofNat (2 + 2 * i.immediateCount)

/-- The distance from an instruction to the word of one of its operands. -/
def immediateOffset (i : Instruction) : Position → UInt16
  | .destination => 2
  | .source => if i.dst.hasImmediate then 4 else 2

/-- The bytes of an instruction with the given words; their number is checked
before the locations are. -/
def encode (i : Instruction) (immediates : List UInt16) : Except EncodeError (List UInt8) :=
  if immediates.length = i.immediateCount then
    i.header.map (· ++ immediates.flatMap Word.bytes)
  else
    .error (.immediateCount i.immediateCount immediates.length)

theorem immediateCount_le_two (i : Instruction) : i.immediateCount ≤ 2 := by
  have h (b : Bool) : b.toNat ≤ 1 := by cases b <;> decide
  have := h i.dst.hasImmediate
  have := h i.src.hasImmediate
  simp only [immediateCount]
  omega

theorem toNat_size (i : Instruction) : i.size.toNat = 2 + 2 * i.immediateCount := by
  have := i.immediateCount_le_two
  simp only [size, UInt16.toNat_ofNat']
  omega

end Instruction
end CoreWar
