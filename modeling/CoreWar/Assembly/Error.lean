import CoreWar.Instruction

/-!
# Assembly errors

What can be wrong with a line of assembly text, and how it is worded.  Assembling
can also be cut short without an error, where a number has no negative within
its bits.
-/

namespace CoreWar
namespace Assembly

/-- What is wrong with a line. -/
inductive Cause where
  /-- The text before a colon is not one word. -/
  | invalidLabel
  | missingOperand
  | invalidOperand (text : String)
  | invalidNumber (text : String)
  | unknownMnemonic (name : String)
  | undefinedLabel (name : String)
  | duplicateLabel (name : String)
  | valueOutOfRange (value : Int)
  | operandCount (opcode : Opcode) (found : Nat)
  | encode (reason : EncodeError)
  deriving DecidableEq, Repr

/-- Why assembling stops without a program: a number has overflowed, which ends
it on the spot, or something is wrong. -/
inductive Stop (ε : Type) where
  | overflow
  | fault (e : ε)
  deriving DecidableEq, Repr

namespace Stop

/-- Tells what is wrong in another way. -/
def map {ε δ : Type} (f : ε → δ) : Stop ε → Stop δ
  | overflow => overflow
  | fault e => fault (f e)

end Stop

/-- An error and the line on which it was found, counted from one. -/
structure Error where
  line : Nat
  cause : Cause
  deriving DecidableEq, Repr

/-- The wording of an error. -/
def Error.message (e : Error) : String :=
  let at_ := s!"on line {e.line}"
  match e.cause with
  | .invalidLabel => s!"syntax error {at_}: invalid label"
  | .missingOperand => s!"syntax error {at_}: missing operand"
  | .invalidOperand text => s!"syntax error {at_}: invalid operand: {text}"
  | .invalidNumber text => s!"syntax error {at_}: invalid number: {text}"
  | .unknownMnemonic name => s!"unknown mnemonic {at_}: {name}"
  | .undefinedLabel name => s!"undefined label {at_}: {name}"
  | .duplicateLabel name => s!"duplicate label {at_}: {name}"
  | .valueOutOfRange value => s!"value out of range {at_}: {value}"
  | .operandCount op found =>
    s!"{op.name} {at_} takes {op.arity} operands, found {found}"
  | .encode reason => s!"cannot encode line {e.line}: {reason.message}"

end Assembly
end CoreWar
