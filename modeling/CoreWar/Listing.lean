import CoreWar.Assembly
import CoreWar.Text.Hex

/-!
# Listings

A listing shows a program as assembly text, one instruction a line, with the
address before it and the bytes after it.  Each line assembles to the bytes it
was made from: where the text of an instruction would not, the bytes are shown
as data.  `Listing.sourceOf` takes the assembly text out of a listing again.
-/

namespace CoreWar
namespace Listing

/-- A number below 65536 as a signed word. -/
def signedWord (w : UInt16) : List Char := (toString (Int.bmod w.toNat 65536)).toList

/-- The mark of an access mode. -/
def modeMark : AccessMode → List Char
  | .direct => []
  | .relative => ['$']

/-- The text of the word that belongs to an operand. -/
def wordText (mode : AccessMode) (w : UInt16) : List Char :=
  match mode with
  | .direct => ['0', 'x'] ++ Text.hex 4 w.toNat
  | .relative => signedWord w

/-- The text of an operand with the given word. -/
def operandText (l : Location) (mode : AccessMode) (w : UInt16) : List Char :=
  match l with
  | .pax => modeMark mode ++ "[AX]".toList
  | .pbx => modeMark mode ++ "[BX]".toList
  | .pcx => modeMark mode ++ "[CX]".toList
  | .imd => modeMark mode ++ wordText mode w
  | .pimd => modeMark mode ++ ['['] ++ wordText mode w ++ [']']
  | .invalid => "???".toList
  | l => modeMark mode ++ l.name.toList

/-- The text of an instruction.  Words are taken in order by the operands that
have one, whether they are shown or not; a missing one counts as zero. -/
def instructionText (i : Instruction) (words : List UInt16) : List Char :=
  let dstWord := words.headD 0
  let srcWord := (if i.dst.hasImmediate then words.tail else words).headD 0
  let operands :=
    [operandText i.dst i.dstMode dstWord, operandText i.src i.srcMode srcWord].take i.opcode.arity
  if operands.isEmpty then
    i.opcode.name.toList
  else
    i.opcode.name.toList ++ [' '] ++ Text.join [',', ' '] operands

/-- The text of bytes as data. -/
def dataText (bytes : List UInt8) : List Char :=
  "DB ".toList ++ Text.join [',', ' '] (bytes.map fun b => (toString b.toNat).toList)

/-- What a line of a listing shows. -/
structure Entry where
  address : Nat
  bytes : List UInt8
  /-- The assembly text. -/
  text : List Char
  /-- Whether the program ends before the instruction does. -/
  isTail : Bool := false
  deriving DecidableEq, Repr

/-- Whether a text assembles to the given bytes. -/
def spells (text : List Char) (bytes : List UInt8) : Bool :=
  match Assembly.ofText text with
  | .ok bs => bs == bytes
  | .error _ => false

/-- Words from pairs of bytes. -/
def wordsOf : List UInt8 → List UInt16
  | h :: l :: rest => Word.ofBytes h l :: wordsOf rest
  | _ => []

/-- The entry of a complete instruction. -/
def Entry.ofInstruction (address : Nat) (i : Instruction) (header words : List UInt8) : Entry :=
  let bytes := header ++ words
  let text := instructionText i (wordsOf words)
  ⟨address, bytes, if spells text bytes then text else dataText bytes, false⟩

/-- The entries of the rest of a program that starts at an address, after those
already made, the last one first. -/
def addEntries (done : List Entry) (address : Nat) (program : List UInt8) : List Entry :=
  match program with
  | [] => done
  | [b] => ⟨address, [b], dataText [b], true⟩ :: done
  | b0 :: b1 :: rest =>
    let i := Instruction.ofHeader b0 b1
    let n := 2 * i.immediateCount
    let words := rest.take n
    if words.length < n then
      ⟨address, b0 :: b1 :: rest, dataText (b0 :: b1 :: rest), true⟩ :: done
    else
      addEntries (Entry.ofInstruction address i [b0, b1] words :: done) (address + 2 + n)
        (rest.drop n)
termination_by program.length
decreasing_by
  simp only [List.length_drop, List.length_cons]
  omega

/-- The entries of a program. -/
def entries (program : List UInt8) : List Entry := (addEntries [] 0 program).reverse

/-- The line of an entry. -/
def Entry.line (e : Entry) : List Char :=
  let shown := Text.hex 4 e.address ++ [':', ' ']
  if e.isTail then
    shown ++ e.text
  else
    shown ++ Text.padRight 24 e.text ++ " ; ".toList ++ Text.hexBytes e.bytes

/-- The lines above the entries. -/
def heading : List (List Char) :=
  ["; Warrior Disassembly".toList, "; -------------------".toList, []]

/-- The lines of a listing. -/
def lines (program : List UInt8) : List (List Char) :=
  heading ++ (entries program).map Entry.line

/-- Whether a line of a listing shows a part of the program. -/
def isEntryLine : List Char → Bool
  | ':' :: ' ' :: _ => true
  | _ :: cs => isEntryLine cs
  | [] => false

/-- The assembly text in the lines of a listing. -/
def sourceOf (lines : List (List Char)) : List Char :=
  Text.join ['\n']
    ((lines.filter isEntryLine).map fun l => (l.drop 6).takeWhile (· ≠ ';'))

end Listing

/-- The listing of a program. -/
def disassemble (program : List UInt8) : String :=
  String.ofList ((Listing.lines program).flatMap (· ++ ['\n']))

end CoreWar
