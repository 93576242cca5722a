import CoreWar.Assembly.Numeral
import CoreWar.Text.Uppercase

/-!
# Operands in assembly text

An operand names a register, points through one in brackets, or holds a number
or a label, in brackets or not.  A dollar sign makes it relative to the
instruction; a label always is.
-/

namespace CoreWar
namespace Assembly

/-- What fills the word that follows an instruction. -/
inductive Slot where
  | value (w : UInt16)
  /-- The distance to a label. -/
  | label (name : String)
  deriving DecidableEq, Repr

/-- An operand as it is written. -/
structure Operand where
  location : Location
  mode : AccessMode := .direct
  /-- The contents of the word that belongs to the operand. -/
  slot : Option Slot := none
  deriving DecidableEq, Repr

namespace Operand

/-- The operand in a place that the operation does not use. -/
def unused : Operand := ⟨.al, .direct, none⟩

/-- The pointer of a register's name. -/
def pointer? (name : String) : Option Location :=
  match name with
  | "AX" => some .pax
  | "BX" => some .pbx
  | "CX" => some .pcx
  | _ => none

/-- The registers that can be named, the instruction pointer included. -/
def registers : List Location := [.al, .ah, .bl, .bh, .cl, .ch, .ax, .bx, .cx, .ip]

/-- The register of a name. -/
def register? (name : String) : Option Location := registers.find? (·.name == name)

/-- Whether a text is taken for a number. -/
def looksNumeric : List Char → Bool
  | c :: _ => c.isDigit || c == '-'
  | [] => false

/-- Whether a character may stand in a label. -/
def isLabelChar (c : Char) : Bool := c.isAlphanum || c == '_'

/-- An operand with a word of its own, from a text in capitals. -/
def immediate (l : Location) (mode : AccessMode) (text : List Char) :
    Except (Stop Cause) Operand := do
  if text.isEmpty then
    throw (.fault .missingOperand)
  else if looksNumeric text then
    let w ← Numeral.toWord (← Numeral.parse text)
    return ⟨l, mode, some (.value w)⟩
  else if text.all isLabelChar then
    return ⟨l, .relative, some (.label (String.ofList text))⟩
  else
    throw (.fault (.invalidOperand (String.ofList text)))

/-- The text between brackets, if it has them. -/
def bracketed? : List Char → Option (List Char)
  | '[' :: cs => if cs.getLast? = some ']' then some cs.dropLast else none
  | _ => none

/-- The operand that a text spells. -/
def parse (text : List Char) : Except (Stop Cause) Operand :=
  let (mode, body) : AccessMode × List Char :=
    match text with
    | '$' :: cs => (.relative, Text.trim cs)
    | cs => (.direct, cs)
  match bracketed? body with
  | some inner =>
    let inner := Text.upper (Text.trim inner)
    match pointer? (String.ofList inner) with
    | some l => .ok ⟨l, mode, none⟩
    | none => immediate .pimd mode inner
  | none =>
    let body := Text.upper body
    match register? (String.ofList body) with
    | some l => .ok ⟨l, mode, none⟩
    | none => immediate .imd mode body

end Operand
end Assembly
end CoreWar
