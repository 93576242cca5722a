import CoreWar.Json
import CoreWar.Match.Configuration.Error

/-!
# Player settings

What a match may set for each player: a name, a multiplier for the cycles of a
turn, and the number of threads the player may have at once.  An entry that is
left out takes its default.
-/

namespace CoreWar

/-- The settings of a player. -/
structure PlayerSettings where
  name : String := ""
  /-- What the cycles of a turn are multiplied by. -/
  modifier : Float := 1
  maxThreads : Nat := 32

namespace PlayerSettings

/-- The largest modifier; with it the cycles of a turn stay below `2 ^ 32`. -/
def maxModifier : Nat := 65535

/-- The name of a player who has none. -/
def defaultName (pid : Nat) : String := s!"Player {pid}"

/-- The number of threads that a value gives. -/
def threads? (v : Json) : Option Nat := v.nat?.filter (· ≤ 255)

/-- A value read if it is there; what is there has to be readable. -/
def orDefault {α : Type} (default : α) (read? : Json → Option α) : Option Json → Option α
  | none => some default
  | some v => read? v

/-- The modifier among the members of an object, which may be spelled in two
ways but given only once. -/
def modifier? (members : List (String × Json)) : Option Float :=
  match Json.field? members "cycle_modifer", Json.field? members "cycle_modifier" with
  | some _, some _ => none
  | some v, none | none, some v => v.float?
  | none, none => some 1

/-- The settings that a value gives: an object, or an array with the three
settings in order, which may end early. -/
def ofJson? : Json → Option PlayerSettings
  | .object members => do
    let name ← orDefault "" Json.string? (Json.field? members "name")
    let modifier ← modifier? members
    let maxThreads ← orDefault 32 threads? (Json.field? members "max_threads")
    return { name, modifier, maxThreads }
  | .array items => do
    if 3 < items.length then
      none
    let name ← orDefault "" Json.string? items[0]?
    let modifier ← orDefault 1 Json.float? items[1]?
    let maxThreads ← orDefault 32 threads? items[2]?
    return { name, modifier, maxThreads }
  | _ => none

/-- The settings under the default name of a player if they have none. -/
def named (s : PlayerSettings) (pid : Nat) : PlayerSettings :=
  if s.name.isEmpty then { s with name := defaultName pid } else s

end PlayerSettings
end CoreWar
