import CoreWar.Assembly.Operand

/-!
# Lines of assembly text

A line may define a label and hold one statement: data, or an instruction with
its operands.  A semicolon starts a comment.
-/

namespace CoreWar
namespace Assembly

/-- The bytes a statement stands for, as far as they are known without the
labels: bytes, then words. -/
structure Statement where
  head : List UInt8
  slots : List Slot := []
  deriving DecidableEq, Repr

namespace Statement

/-- The number of bytes. -/
def size (s : Statement) : Nat := s.head.length + 2 * s.slots.length

/-- The operands of a statement. -/
def operands (rest : List Char) : List (List Char) :=
  if rest.isEmpty then [] else (Text.split ',' rest).map Text.trim

/-- Data bytes. -/
def bytes (texts : List (List Char)) : Except (Stop Cause) Statement := do
  let head ← texts.mapM fun t => do Numeral.toByte (← Numeral.parse t)
  return { head }

/-- Data words. -/
def words (texts : List (List Char)) : Except (Stop Cause) Statement := do
  let ws ← texts.mapM fun t => do Numeral.toWord (← Numeral.parse t)
  return { head := ws.flatMap Word.bytes }

/-- An instruction.  The places that it does not use are `al`. -/
def instruction (op : Opcode) (texts : List (List Char)) : Except (Stop Cause) Statement := do
  if texts.length ≠ op.arity then
    throw (.fault (.operandCount op texts.length))
  let given ← texts.mapM Operand.parse
  let dst := given.getD 0 Operand.unused
  let src := given.getD 1 Operand.unused
  let i : Instruction := ⟨op, dst.mode, src.mode, dst.location, src.location⟩
  match i.header with
  | .ok head => return { head, slots := [dst, src].filterMap Operand.slot }
  | .error e => throw (.fault (.encode e))

/-- The statement that a text without blanks at its ends spells. -/
def parse (text : List Char) : Except (Stop Cause) Statement :=
  let mnemonic := String.ofList (Text.upper (text.takeWhile (!Text.isBlank ·)))
  let texts := operands (Text.trim (text.dropWhile (!Text.isBlank ·)))
  match mnemonic with
  | "DB" => bytes texts
  | "DW" => words texts
  | name =>
    match Opcode.ofName? name with
    | some op => instruction op texts
    | none => .error (.fault (.unknownMnemonic name))

end Statement

/-- A line taken apart. -/
structure Line where
  /-- The text before the first colon, if there is one. -/
  label : Option (List Char)
  /-- What is left, without blanks at its ends. -/
  body : List Char
  deriving DecidableEq, Repr

namespace Line

/-- Takes a line apart. -/
def ofText (text : List Char) : Line :=
  let text := Text.trim (text.takeWhile (· ≠ ';'))
  if ':' ∈ text then
    ⟨some (text.takeWhile (· ≠ ':')), Text.trim ((text.dropWhile (· ≠ ':')).drop 1)⟩
  else
    ⟨none, text⟩

/-- The name that a label defines: one word, in capitals. -/
def labelName (label : List Char) : Except (Stop Cause) String :=
  let name := Text.upper (Text.trim label)
  if name.isEmpty || name.any Text.isBlank then
    .error (.fault .invalidLabel)
  else
    .ok (String.ofList name)

end Line
end Assembly
end CoreWar
