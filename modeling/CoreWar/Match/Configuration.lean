import CoreWar.Arena
import CoreWar.Base64
import CoreWar.Json.Reader
import CoreWar.Match.Cost
import CoreWar.Match.Settings
import CoreWar.Text.Uppercase

/-!
# Match configurations

A match is described by one JSON object.  `Configuration.ofJson` checks all of
it before anything is played: numbers within their ranges, known operations,
readable settings, and programs that are small enough, one by one and together.
The checks come in a fixed order, and the first that fails decides the error.
-/

namespace CoreWar

/-- The rules of a match. -/
structure Rules where
  cyclesPerTurn : Nat
  maxCycles : Nat
  /-- Points for a thread of another player that dies on one's own cell. -/
  threadScore : Nat
  /-- Points for the last thread of another player. -/
  processScore : Nat
  /-- Points for each cell owned at the end. -/
  memoryScore : Float
  costs : CostTable

/-- A player and the program it enters with. -/
structure Contestant where
  settings : PlayerSettings
  program : List UInt8

/-- A checked description of a match. -/
structure Configuration where
  rules : Rules
  /-- The players in the order of their numbers, which start at one. -/
  contestants : List Contestant
  maxProgramSize : Nat
  /-- What placement is drawn from, if it is to be repeatable. -/
  seed : Option UInt64

namespace Configuration

/-- The members of an object in a configuration. -/
abbrev Members := List (String × Json)

/-- A required integer within bounds. -/
def readInt (o : Members) (field : String) (least most : Int) :
    Except Error { n : Int // least ≤ n ∧ n ≤ most } :=
  match Json.field? o field with
  | none => .error (.missing field)
  | some v =>
    match v.int64? with
    | some n =>
      if h : least ≤ n ∧ n ≤ most then
        .ok ⟨n, h⟩
      else
        .error (.outOfRange field (.integer n least most))
    | none =>
      if v.nat?.isSome then
        .error (.outOfRange field (.above most))
      else
        .error (.malformed field .notInteger)

/-- A required integer within bounds that are not negative. -/
def readNat (o : Members) (field : String) (least most : Nat) : Except Error Nat :=
  (readInt o field least most).map fun n => n.val.toNat

/-- A required number within bounds. -/
def readReal (o : Members) (field : String) (least most : Nat) : Except Error Float :=
  match Json.field? o field with
  | none => .error (.missing field)
  | some v =>
    match v.float? with
    | some x =>
      if Float.ofNat least ≤ x ∧ x ≤ Float.ofNat most then
        .ok x
      else
        .error (.outOfRange field (.real x least most))
    | none => .error (.malformed field .notNumber)

/-- The cost that a required field gives. -/
def readCost (o : Members) (field : String) : Except Error Cost :=
  (readInt o field 1 0xFFFFFFFF).map fun n => ⟨n.val.toNat, by have := n.property; omega⟩

/-- Enters one cost into a table, under the name of its operation. -/
def addCost (o : Members) (t : CostTable) (name : String) : Except Error CostTable :=
  let field := s!"cycles.{name}"
  match Opcode.ofName? (String.ofList (Text.upper name.toList)) with
  | none => .error (.malformed field .unknownOpcode)
  | some op =>
    match readCost o name with
    | .ok c => .ok (t.set op c)
    | .error e => .error (e.withField field)

/-- The costs that a configuration sets, in the order of their names. -/
def readCosts (o : Members) : Except Error CostTable :=
  match Json.field? o "cycles" with
  | none | some .null => .ok CostTable.ones
  | some (.object costs) =>
      ((Json.entries costs).map Prod.fst).foldlM (addCost costs) CostTable.ones
  | some _ => .error (.malformed "cycles" .notObject)

/-- The field of a player's settings. -/
def playerField (index : Nat) : String := s!"player_settings[{index}]"

/-- The settings that the entry of a player gives, if there is one. -/
def givenPlayer (entries : List Json) (index : Nat) : Except Error PlayerSettings :=
  match entries[index]? with
  | none | some .null => .ok {}
  | some v =>
    match PlayerSettings.ofJson? v with
    | some s => .ok s
    | none => .error (.malformed (playerField index) .notSettings)

/-- Settings whose modifier and number of threads are within bounds. -/
def checkPlayer (index : Nat) (s : PlayerSettings) : Except Error PlayerSettings :=
  if !(0 ≤ s.modifier && s.modifier ≤ Float.ofNat PlayerSettings.maxModifier) then
    .error (.outOfRange s!"{playerField index}.cycle_modifer"
      (.modifier PlayerSettings.maxModifier))
  else if s.maxThreads = 0 then
    .error (.outOfRange s!"{playerField index}.max_threads" .noThreads)
  else
    .ok s

/-- The settings of the player with an index. -/
def readPlayer (entries : List Json) (index : Nat) : Except Error PlayerSettings := do
  let s ← givenPlayer entries index
  checkPlayer index (s.named (index + 1))

/-- The entries of the players, as far as there are any. -/
def playerEntries (o : Members) : Except Error (List Json) :=
  match Json.field? o "player_settings" with
  | none | some .null => .ok []
  | some (.array entries) => .ok entries
  | some _ => .error (.malformed "player_settings" .notArray)

/-- The settings of a number of players. -/
def readPlayers (o : Members) (count : Nat) : Except Error (List PlayerSettings) := do
  let entries ← playerEntries o
  (List.range count).mapM (readPlayer entries)

/-- The program of a player, given with the player's index. -/
def readProgram (x : (PlayerSettings × Json) × Nat) : Except Error Contestant :=
  let ((settings, v), index) := x
  let field := s!"warriors[{index}]"
  match v.string? with
  | none => .error (.malformed field .notText)
  | some text =>
    match Base64.decode? text.toList with
    | none => .error (.malformed field .notBase64)
    | some [] => .error (.malformed field (.emptyProgram settings.name))
    | some program => .ok ⟨settings, program⟩

/-- The texts of at least as many programs as there are players. -/
def programTexts (o : Members) (count : Nat) : Except Error (List Json) :=
  match Json.field? o "warriors" with
  | none => .error (.missing "warriors")
  | some (.array texts) =>
    if texts.length < count then
      .error (.malformed "warriors" (.programCount count texts.length))
    else
      .ok texts
  | some _ => .error (.malformed "warriors" .notArray)

/-- The programs of the given players; programs beyond those are left alone. -/
def readPrograms (o : Members) (players : List PlayerSettings) :
    Except Error (List Contestant) := do
  let texts ← programTexts o players.length
  ((players.zip texts).zipIdx).mapM readProgram

/-- The size of programs that a configuration sets; zero if it does not. -/
def givenProgramSize (o : Members) : Except Error Nat :=
  match Json.field? o "max_player_size" with
  | none => .ok 0
  | some _ => readNat o "max_player_size" 0 Arena.size

/-- The largest program that a player may enter: an even share of the arena
unless the configuration says otherwise. -/
def readMaxProgramSize (o : Members) (players : Nat) : Except Error Nat := do
  let size ← givenProgramSize o
  return if size = 0 then Arena.size / players else size

/-- Adds a program to those before it, whose total size is given. -/
def addProgram (most total : Nat) (c : Contestant) : Except Error Nat :=
  if most < c.program.length then
    .error (.programTooLarge c.settings.name c.program.length most)
  else if Arena.size < total + c.program.length then
    .error (.arenaOverflow (total + c.program.length))
  else
    .ok (total + c.program.length)

/-- The seed that a configuration sets. -/
def readSeed (o : Members) : Except Error (Option UInt64) :=
  match Json.field? o "seed" with
  | none | some .null => .ok none
  | some v =>
    match v.nat? with
    | some n => .ok (some n.toUInt64)
    | none => .error (.malformed "seed" .notUnsigned)

/-- The configuration that a value describes. -/
def ofJson : Json → Except Error Configuration
  | .object o => do
    let count ← readNat o "num_players" 1 255
    let cyclesPerTurn ← readNat o "cycles_per_turn" 1 65535
    let maxCycles ← readNat o "max_cycles" 1 0x7FFFFFFFFFFFFFFF
    let threadScore ← readNat o "score_for_killing_thread" 0 0xFFFFFFFF
    let processScore ← readNat o "score_for_killing_process" 0 0xFFFFFFFF
    let memoryScore ← readReal o "score_for_owning_ram" 0 0xFFFFFFFF
    let costs ← readCosts o
    let players ← readPlayers o count
    let contestants ← readPrograms o players
    let maxProgramSize ← readMaxProgramSize o count
    let _ ← contestants.foldlM (addProgram maxProgramSize) 0
    let seed ← readSeed o
    return {
      rules := { cyclesPerTurn, maxCycles, threadScore, processScore, memoryScore, costs }
      contestants, maxProgramSize, seed }
  | _ => .error (.malformed "config" .notRootObject)

/-- The configuration that a JSON text describes. -/
def ofText (text : String) : Except Error Configuration :=
  match Json.parse? text with
  | some v => ofJson v
  | none => .error .notJson

/-- The size of all programs together. -/
def totalSize (c : Configuration) : Nat :=
  c.contestants.foldr (fun x total => x.program.length + total) 0

end Configuration
end CoreWar
