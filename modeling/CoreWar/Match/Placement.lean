import CoreWar.Match.Error
import CoreWar.Match.Game
import CoreWar.Random.Source

/-!
# Placement

Before a match the programs are put into the arena one after another, in an
order that is drawn, and with a gap in front of each that is drawn too.  No gap
is larger than an even share of what the programs leave free, so all of them fit
whatever is drawn.
-/

namespace CoreWar

/-- A program to be placed, by the index of its player, and the gap in front of
it. -/
structure Placing (c : Configuration) where
  index : Fin c.contestants.length
  gap : Nat
  deriving DecidableEq, Repr

/-- A match that is being set up. -/
structure Setup where
  arena : Arena
  players : Array Player
  starts : Array UInt16
  /-- Where the last program ends. -/
  offset : Nat

namespace Configuration

/-- The largest gap in front of a program. -/
def maxGap (c : Configuration) : Nat := (Arena.size - c.totalSize) / c.contestants.length

/-- The setup before anything is placed. -/
def setup (c : Configuration) : Setup where
  arena := .empty
  players := (c.contestants.zipIdx 1).toArray.map fun x =>
    { pid := UInt8.ofNat x.2, settings := x.1.settings }
  starts := Array.replicate c.contestants.length 0
  offset := 0

/-- Places a program behind those before it and gives its player a thread. -/
def place (c : Configuration) (s : Setup) (x : Placing c) : Except MatchError Setup :=
  match s with
  | ⟨arena, players, starts, offset⟩ =>
    let program := c.contestants[x.index].program
    let pid := UInt8.ofNat (x.index + 1)
    let offset := offset + x.gap
    let start := UInt16.ofNat offset
    match arena.load start program pid with
    | .error e => .error (.load e)
    | .ok arena =>
      match players[x.index.val]?.bind (·.spawn? { ip := start }) with
      | none => .error (.noThreads pid)
      | some p =>
        .ok ⟨arena, players.setIfInBounds x.index p, starts.setIfInBounds x.index start,
          offset + program.length⟩

/-- The game in which the programs are placed as given. -/
def gameOf (c : Configuration) (placings : List (Placing c)) : Except MatchError Game :=
  match placings.foldlM c.place c.setup with
  | .error e => .error e
  | .ok s =>
    .ok {
      rules := c.rules
      arena := s.arena
      players := s.players
      starts := s.starts.toList
      alive := s.players.size }

variable {σ : Type} [Random.Source σ]

/-- Draws how the programs are placed. -/
def drawPlacings (c : Configuration) : Random.Draw σ (List (Placing c)) := do
  let order ← Random.shuffle (List.finRange c.contestants.length)
  order.mapM fun index => do
    let gap ← Random.below64 (c.maxGap + 1)
    return ⟨index, gap⟩

/-- The game in which the programs are placed as drawn from a source. -/
def newGame (c : Configuration) (source : σ) : Except MatchError Game :=
  match c.drawPlacings source with
  | some (placings, _) => c.gameOf placings
  | none => .error .noDraw

end Configuration
end CoreWar
