import CoreWar.Decimal.Shortest

/-!
# Configuration errors

Why a text is no configuration, and how it is worded.  Most errors are about one
field and name it.
-/

namespace CoreWar
namespace Configuration

/-- How a number leaves its range. -/
inductive RangeFlaw where
  /-- A number beyond sixty-four signed bits. -/
  | above (most : Int)
  | integer (found least most : Int)
  | real (found : Float) (least most : Nat)
  /-- A cycle modifier beyond the largest one. -/
  | modifier (most : Nat)
  | noThreads

/-- Why the value of a field is not what it should be. -/
inductive Flaw where
  | notRootObject
  | notObject
  | notArray
  | notInteger
  | notNumber
  | notUnsigned
  | notText
  | notBase64
  | notSettings
  | unknownOpcode
  | programCount (expected found : Nat)
  | emptyProgram (name : String)
  deriving DecidableEq, Repr

/-- Why a text is no configuration. -/
inductive Error where
  | notJson
  | missing (field : String)
  | outOfRange (field : String) (flaw : RangeFlaw)
  | malformed (field : String) (flaw : Flaw)
  | programTooLarge (name : String) (size most : Nat)
  | arenaOverflow (total : Nat)

/-- The wording of a range error. -/
def RangeFlaw.message : RangeFlaw → String
  | above most => s!"must be at most {most}"
  | integer found least most => s!"{found} is not within {least}..={most}"
  | real found least most =>
    s!"{String.ofList (Decimal.text found)} is not within {least}..={most}"
  | modifier most => s!"must be within 0..={most}"
  | noThreads => "must be at least 1"

/-- The wording of a flaw. -/
def Flaw.message : Flaw → String
  | notRootObject => "expected a JSON object"
  | notObject => "expected an object"
  | notArray => "expected an array"
  | notInteger => "expected an integer"
  | notNumber => "expected a number"
  | notUnsigned => "expected an unsigned integer"
  | notText => "expected a base64 string"
  | notBase64 => "invalid base64"
  | notSettings => "invalid player settings"
  | unknownOpcode => "unknown opcode"
  | programCount expected found => s!"expected {expected} programs, found {found}"
  | emptyProgram name => s!"{name} did not decode properly"

/-- The wording of an error. -/
def Error.message : Error → String
  | notJson => "config is not valid JSON"
  | missing field => s!"{field} is not set"
  | outOfRange field flaw => s!"{field} is out of bounds: {flaw.message}"
  | malformed field flaw => s!"{field} is invalid: {flaw.message}"
  | programTooLarge name size most =>
    s!"{name} is larger than the max size ({size} > {most} bytes)"
  | arenaOverflow total =>
    s!"total size of warriors exceeds the arena ({total} > 65536 bytes)"

/-- The field that an error is about. -/
def Error.field? : Error → Option String
  | missing field | outOfRange field _ | malformed field _ => some field
  | _ => none

/-- The same error about another field. -/
def Error.withField (e : Error) (field : String) : Error :=
  match e with
  | missing _ => missing field
  | outOfRange _ flaw => outOfRange field flaw
  | malformed _ flaw => malformed field flaw
  | e => e

end Configuration
end CoreWar
