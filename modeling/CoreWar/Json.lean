import CoreWar.Json.Number

/-!
# JSON values

A JSON value keeps the members of an object in the order in which they were
written, repetitions included.  Two readings of an object are offered: `field?`
takes the last member of a name, `entries` lists every name once in order.
-/

namespace CoreWar

/-- A JSON value. -/
inductive Json where
  | null
  | bool (b : Bool)
  | number (n : Json.Number)
  | string (s : String)
  | array (items : List Json)
  | object (members : List (String × Json))

namespace Json

instance : Inhabited Json := ⟨null⟩

/-- The value of the last member with a name. -/
def field? (members : List (String × Json)) (name : String) : Option Json :=
  members.foldl (fun found m => if m.1 = name then some m.2 else found) none

/-- Adds an entry to a list ordered by name, in place of one of that name. -/
def insertEntry (name : String) (v : Json) : List (String × Json) → List (String × Json)
  | [] => [(name, v)]
  | e :: es =>
    if name = e.1 then
      (name, v) :: es
    else if name < e.1 then
      (name, v) :: e :: es
    else
      e :: insertEntry name v es

/-- Every name once, with its last value, in the order of code points. -/
def entries (members : List (String × Json)) : List (String × Json) :=
  members.foldl (fun es m => insertEntry m.1 m.2 es) []

/-- The integer that a value is, if it is one in the range of sixty-four signed
bits. -/
def int64? : Json → Option Int
  | number (.integer n) => if n < 0x8000000000000000 then some n else none
  | _ => none

/-- The integer that a value is, if it is one and not negative. -/
def nat? : Json → Option Nat
  | number (.integer n) => if 0 ≤ n then some n.toNat else none
  | _ => none

/-- The double that a number is or rounds to. -/
def Number.toFloat : Number → Float
  | integer n => if 0 ≤ n then n.toNat.toUInt64.toFloat else -(-n).toNat.toUInt64.toFloat
  | real x => x

/-- The double that a value is or rounds to, if it is a number. -/
def float? : Json → Option Float
  | number n => some n.toFloat
  | _ => none

/-- The text that a value is, if it is one. -/
def string? : Json → Option String
  | string s => some s
  | _ => none

end Json
end CoreWar
