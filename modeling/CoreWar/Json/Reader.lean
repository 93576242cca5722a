import CoreWar.Json
import CoreWar.Json.Token

/-!
# Reading a JSON text

Tokens are read one at a time.  The reader keeps the containers that are still
open, the innermost one first, and what it expects next.  A text may nest
containers up to `maxDepth` deep.
-/

namespace CoreWar
namespace Json

/-- A container that waits for one of its values. -/
inductive Frame where
  /-- An array, with the items before, the last one first. -/
  | array (items : List Json)
  /-- An object, with the members before, the last one first, and the name of
  the value. -/
  | object (members : List (String × Json)) (name : String)

/-- What the reader expects next. -/
inductive Phase where
  /-- A value. -/
  | value
  /-- A value or the end of an array that was just opened. -/
  | firstItem
  /-- A name or the end of an object that was just opened. -/
  | firstName
  /-- A name, after the members before. -/
  | name (members : List (String × Json))
  /-- A colon after a name. -/
  | colon (members : List (String × Json)) (name : String)
  /-- Whatever may follow a complete value. -/
  | done (v : Json)

/-- The open containers and what is expected next. -/
structure Reader where
  frames : List Frame := []
  phase : Phase := .value

namespace Reader

/-- How deep containers may be nested. -/
def maxDepth : Nat := 127

/-- Starts to read a value with the given token. -/
def begin? (frames : List Frame) : Token → Option Reader
  | .null => some ⟨frames, .done .null⟩
  | .bool b => some ⟨frames, .done (.bool b)⟩
  | .number n => some ⟨frames, .done (.number n)⟩
  | .string s => some ⟨frames, .done (.string s)⟩
  | .openArray => if frames.length < maxDepth then some ⟨frames, .firstItem⟩ else none
  | .openObject => if frames.length < maxDepth then some ⟨frames, .firstName⟩ else none
  | _ => none

/-- Goes on after a complete value. -/
def proceed? (v : Json) : List Frame → Token → Option Reader
  | .array items :: frames, .comma => some ⟨.array (v :: items) :: frames, .value⟩
  | .array items :: frames, .closeArray => some ⟨frames, .done (.array (v :: items).reverse)⟩
  | .object members name :: frames, .comma => some ⟨frames, .name ((name, v) :: members)⟩
  | .object members name :: frames, .closeObject =>
    some ⟨frames, .done (.object ((name, v) :: members).reverse)⟩
  | _, _ => none

/-- Reads one token. -/
def read? (r : Reader) (t : Token) : Option Reader :=
  match r.phase, t with
  | .value, t => begin? r.frames t
  | .firstItem, .closeArray => some ⟨r.frames, .done (.array [])⟩
  | .firstItem, t => begin? (.array [] :: r.frames) t
  | .firstName, .closeObject => some ⟨r.frames, .done (.object [])⟩
  | .firstName, .string s => some ⟨r.frames, .colon [] s⟩
  | .name members, .string s => some ⟨r.frames, .colon members s⟩
  | .colon members s, .colon => some ⟨.object members s :: r.frames, .value⟩
  | .done v, t => proceed? v r.frames t
  | _, _ => none

/-- The value that has been read, if nothing is open any more. -/
def result? (r : Reader) : Option Json :=
  match r.frames, r.phase with
  | [], .done v => some v
  | _, _ => none

end Reader

/-- The value that a row of tokens spells. -/
def ofTokens? (ts : List Token) : Option Json :=
  (ts.foldlM Reader.read? {}).bind Reader.result?

/-- The value that a text spells. -/
def parse? (text : String) : Option Json := (Token.ofText? text.toList).bind ofTokens?

end Json
end CoreWar
