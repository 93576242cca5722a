import CoreWar.Json
import CoreWar.Text.Blank

/-!
# Match events

What happens in a match is told as a row of events: the programs are placed,
then instruction follows instruction.  An event is written as a JSON object on
one line and can be read back from it, or from any object that gives the same
fields, or from an array that gives them in order.
-/

namespace CoreWar

/-- What happens in a match. -/
inductive Event where
  /-- The programs are placed; the starts are in the order of the players. -/
  | init (cycle : Nat) (starts : List UInt16)
  /-- A player is charged for the instruction at an address.  The event has an
  end if the instruction was also executed and did not fail. -/
  | exec (cycle : Nat) (pid : UInt8) (ins : UInt16) (end? : Option Nat)
  deriving DecidableEq, Repr

namespace Event

/-- The digits of a number. -/
def digits (n : Nat) : List Char := Nat.toDigits 10 n

/-- The part of the text that gives the end. -/
def endText : Option Nat → List Char
  | some n => ",\"end\":".toList ++ digits n
  | none => []

/-- The text of an event. -/
def text : Event → List Char
  | init cycle starts =>
    "\x7b\"type\":\"init\",\"cycle\":".toList ++ digits cycle ++ ",\"starts\":[".toList
      ++ Text.join [','] (starts.map fun a => digits a.toNat) ++ "]\x7d".toList
  | exec cycle pid ins end? =>
    "\x7b\"type\":\"exec\",\"cycle\":".toList ++ digits cycle ++ ",\"pid\":".toList
      ++ digits pid.toNat ++ ",\"ins\":".toList ++ digits ins.toNat ++ endText end? ++ ['}']

/-- The only member of a name. -/
def only? (members : List (String × Json)) (name : String) : Option Json :=
  match members.filter fun m => m.1 = name with
  | [m] => some m.2
  | _ => none

/-- A member that may be missing, but must not be repeated. -/
def atMostOne? (members : List (String × Json)) (name : String) : Option (Option Json) :=
  match members.filter fun m => m.1 = name with
  | [] => some none
  | [m] => some (some m.2)
  | _ => none

/-- The player number that a value is. -/
def pid? (v : Json) : Option UInt8 := (v.nat?.filter (· < UInt8.size)).map UInt8.ofNat

/-- The address that a value is. -/
def address? (v : Json) : Option UInt16 := (v.nat?.filter (· < UInt16.size)).map UInt16.ofNat

/-- The addresses that a value lists. -/
def starts? : Json → Option (List UInt16)
  | .array items => items.mapM address?
  | _ => none

/-- The end that a value gives, which may be none. -/
def endOf? : Option Json → Option (Option Nat)
  | none | some .null => some none
  | some v => v.nat?.map some

/-- The event that the members of an object give.  Members of other names do not
matter. -/
def ofMembers? (members : List (String × Json)) : Option Event := do
  match ← (← only? members "type").string? with
  | "init" =>
    let cycle ← (← only? members "cycle").nat?
    let starts ← starts? (← only? members "starts")
    return init cycle starts
  | "exec" =>
    let cycle ← (← only? members "cycle").nat?
    let pid ← pid? (← only? members "pid")
    let ins ← address? (← only? members "ins")
    let end? ← endOf? (← atMostOne? members "end")
    return exec cycle pid ins end?
  | _ => none

/-- The event that the items of an array give. -/
def ofItems? : List Json → Option Event
  | [.string "init", cycle, starts] => do return init (← cycle.nat?) (← starts? starts)
  | [.string "exec", cycle, pid, ins] => do
    return exec (← cycle.nat?) (← pid? pid) (← address? ins) none
  | [.string "exec", cycle, pid, ins, v] => do
    return exec (← cycle.nat?) (← pid? pid) (← address? ins) (← endOf? (some v))
  | _ => none

/-- The event that a value gives. -/
def ofJson? : Json → Option Event
  | .object members => ofMembers? members
  | .array items => ofItems? items
  | _ => none

end Event
end CoreWar
