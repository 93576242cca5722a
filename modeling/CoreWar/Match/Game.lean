import CoreWar.Match.Configuration
import CoreWar.Match.Event
import CoreWar.Match.Player
import CoreWar.Step

/-!
# The state of a match

A game holds the arena, the players in the order of their numbers, and the count
of cycles.  A thread in hand is charged for the instruction it stands at before
that instruction is executed: what the budget cannot pay remains as a debt of
the thread.  A thread that fails is gone, and whoever owns the cell it stood at
is credited, unless that is nobody or the player itself.
-/

namespace CoreWar

/-- The state of a match. -/
structure Game where
  rules : Rules
  arena : Arena
  /-- The players; the one with index `i` has number `i + 1`. -/
  players : Array Player
  /-- Where the programs start, in the order of the players. -/
  starts : List UInt16
  /-- The cycles counted so far; zero before the match begins. -/
  cycle : Nat := 0
  /-- How many players count as alive. -/
  alive : Nat
  /-- Whether owned cells have been credited. -/
  finished : Bool := false

/-- The results of a match. -/
structure Report where
  cycles : Nat
  /-- The number of players with a thread. -/
  survivors : Nat
  players : List PlayerReport
  deriving DecidableEq, Repr

/-- What a thread owes before it may execute the instruction it stands at. -/
def CostTable.owed (costs : CostTable) (m : Arena) (t : Thread) : Nat :=
  if t.debt = 0 then costs.cost (m.opcodeAt t.ip) else t.debt

theorem CostTable.owed_pos (costs : CostTable) (m : Arena) (t : Thread) : 0 < costs.owed m t := by
  unfold owed
  split
  · exact costs.cost_pos _
  · omega

/-- What came of charging a thread. -/
structure Charge where
  game : Game
  thread : Thread
  /-- What is left of the budget. -/
  budget : Nat
  event : Event
  /-- The fault that ended the thread. -/
  fault? : Option Fault

namespace Game

/-- How many players may be left when the match ends: one, or none if there was
only one. -/
def lastStanding (g : Game) : Nat := if 1 < g.players.size then 1 else 0

/-- The cycles that a full round can take. -/
def reserve (g : Game) : Nat :=
  g.players.foldl
    (fun total p => if p.isAlive then total + p.turnBudget g.rules.cyclesPerTurn else total) 0

/-- A match is over when no more players are left than may be, or when the
cycles left may not be enough for a full round. -/
def isOver (g : Game) : Bool :=
  decide (g.alive ≤ g.lastStanding) || decide (g.rules.maxCycles ≤ g.cycle + g.reserve)

/-- The thread whose turn it is and its player without it. -/
def next? (g : Game) (index : Nat) : Option (Thread × Player) :=
  g.players[index]?.bind Player.next?

/-- Replaces a player. -/
def setPlayer (g : Game) (index : Nat) (p : Player) : Game :=
  match g with
  | ⟨rules, arena, players, starts, cycle, alive, finished⟩ =>
    ⟨rules, arena, players.setIfInBounds index p, starts, cycle, alive, finished⟩

/-- Puts a thread back at the end of the queue of its player. -/
def requeue (g : Game) (index : Nat) (t : Thread) : Game :=
  match g with
  | ⟨rules, arena, players, starts, cycle, alive, finished⟩ =>
    ⟨rules, arena, players.modify index (·.requeue t), starts, cycle, alive, finished⟩

/-- Charges a thread of a player and, if the budget pays for it, executes the
instruction it stands at. -/
def charge (g : Game) (pid : UInt8) (t : Thread) (budget : Nat) : Charge :=
  match g with
  | ⟨rules, arena, players, starts, cycle, alive, finished⟩ =>
    let owed := rules.costs.owed arena t
    if budget < owed then
      ⟨⟨rules, arena, players, starts, cycle + budget, alive, finished⟩,
        { t with debt := owed - budget }, 0, .exec cycle pid t.ip none, none⟩
    else
      match (Machine.mk { t with debt := 0 } arena pid).step with
      | ⟨⟨after, arena, _⟩, .ok _⟩ =>
        ⟨⟨rules, arena, players, starts, cycle + owed, alive, finished⟩,
          after, budget - owed, .exec cycle pid t.ip (some (cycle + owed)), none⟩
      | ⟨⟨after, arena, _⟩, .error fault⟩ =>
        ⟨⟨rules, arena, players, starts, cycle + owed, alive, finished⟩,
          after, budget - owed, .exec cycle pid t.ip none, some fault⟩

/-- Credits the player who owns the cell where a thread of another player
died. -/
def credit (rules : Rules) (players : Array Player) (cause victim : UInt8) (isLast : Bool) :
    Array Player :=
  if cause = 0 ∨ cause = victim then
    players
  else
    players.modify (cause.toNat - 1) fun p =>
      let p := p.creditThread rules.threadScore
      if isLast then p.creditProcess rules.processScore else p

/-- Removes a dead thread of a player, which is not in its queue any more. -/
def kill (g : Game) (index : Nat) (pid : UInt8) (t : Thread) : Game :=
  match g with
  | ⟨rules, arena, players, starts, cycle, alive, finished⟩ =>
    let isLast := !(players[index]?.any Player.isAlive)
    ⟨rules, arena, credit rules players (arena.owner t.ip) pid isLast, starts, cycle,
      if isLast then alive - 1 else alive, finished⟩

/-- Credits every player with the cells it owns, the first time. -/
def finish (g : Game) : Game :=
  match g with
  | ⟨rules, arena, players, starts, cycle, alive, finished⟩ =>
    if finished then
      ⟨rules, arena, players, starts, cycle, alive, finished⟩
    else
      let players := players.map fun p =>
        p.creditCells rules.memoryScore (arena.ownedBy p.pid)
      ⟨rules, arena, players, starts, cycle, alive, true⟩

/-- The results so far. -/
def report (g : Game) : Report where
  cycles := g.cycle
  survivors := g.players.countP Player.isAlive
  players := g.players.toList.map Player.report

@[simp] theorem rules_setPlayer (g : Game) (index : Nat) (p : Player) :
    (g.setPlayer index p).rules = g.rules := rfl

@[simp] theorem rules_kill (g : Game) (index : Nat) (pid : UInt8) (t : Thread) :
    (g.kill index pid t).rules = g.rules := rfl

@[simp] theorem rules_charge (g : Game) (pid : UInt8) (t : Thread) (budget : Nat) :
    (g.charge pid t budget).game.rules = g.rules := by
  unfold charge
  split
  dsimp only
  split
  · rfl
  · split <;> rfl

/-- A charge takes something from a budget that is not spent. -/
theorem budget_charge_lt (g : Game) (pid : UInt8) (t : Thread) {budget : Nat} (h : budget ≠ 0) :
    (g.charge pid t budget).budget < budget := by
  have hpos := g.rules.costs.owed_pos g.arena t
  unfold charge
  split
  dsimp only at *
  split
  · exact Nat.pos_of_ne_zero h
  · split <;> dsimp only <;> omega

end Game
end CoreWar
