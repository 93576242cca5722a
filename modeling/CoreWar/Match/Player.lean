import CoreWar.Match.Settings
import CoreWar.Thread

/-!
# Players

A player takes part in a match under a number, which is also what its writes
leave in the arena.  Its threads wait in a queue, first in, first out: a turn
takes the thread at the head and puts it back at the end if it survives.  The
cap on threads is checked when a thread is added, not when one comes back.
-/

namespace CoreWar

/-- A player of a match. -/
structure Player where
  pid : UInt8
  settings : PlayerSettings
  /-- The threads that wait for a turn, the next one first. -/
  queue : List Thread := []
  killedThreads : Nat := 0
  killedProcesses : Nat := 0
  /-- The cells owned when the match ended. -/
  ownedCells : Nat := 0
  score : Nat := 0

/-- What a player has achieved. -/
structure PlayerReport where
  pid : UInt8
  name : String
  score : Nat
  killedThreads : Nat
  killedProcesses : Nat
  ownedCells : Nat
  threads : Nat
  deriving DecidableEq, Repr

namespace Player

/-- The cycles of a turn: the cycles that the match grants times the player's
modifier, rounded down to thirty-two bits, but at least one. -/
def turnBudget (p : Player) (cyclesPerTurn : Nat) : Nat :=
  max 1 (Float.ofNat cyclesPerTurn * p.settings.modifier).toUInt32.toNat

/-- A player is alive while it has a thread. -/
def isAlive (p : Player) : Bool := !p.queue.isEmpty

/-- Adds a thread at the end of the queue, unless the cap is reached. -/
def spawn? (p : Player) (t : Thread) : Option Player :=
  if p.queue.length < p.settings.maxThreads then
    some { p with queue := p.queue ++ [t] }
  else
    none

/-- Takes the thread at the head of the queue. -/
def next? (p : Player) : Option (Thread × Player) :=
  match p.queue with
  | [] => none
  | t :: ts => some (t, { p with queue := ts })

/-- Puts a thread back at the end of the queue. -/
def requeue (p : Player) (t : Thread) : Player := { p with queue := p.queue ++ [t] }

/-- Credits the player with a thread of another player. -/
def creditThread (p : Player) (points : Nat) : Player :=
  { p with
    killedThreads := p.killedThreads + 1
    score := p.score + points }

/-- Credits the player with the last thread of another player. -/
def creditProcess (p : Player) (points : Nat) : Player :=
  { p with
    killedProcesses := p.killedProcesses + 1
    score := p.score + points }

/-- Credits the player with the cells it owns, of which each counts `weight`
points; a fraction of a point is lost. -/
def creditCells (p : Player) (weight : Float) (cells : Nat) : Player :=
  { p with
    ownedCells := cells
    score := p.score + (weight * Float.ofNat cells).toUInt64.toNat }

/-- What the player has achieved so far. -/
def report (p : Player) : PlayerReport where
  pid := p.pid
  name := p.settings.name
  score := p.score
  killedThreads := p.killedThreads
  killedProcesses := p.killedProcesses
  ownedCells := p.ownedCells
  threads := p.queue.length

theorem turnBudget_pos (p : Player) (cyclesPerTurn : Nat) : 0 < p.turnBudget cyclesPerTurn := by
  unfold turnBudget
  omega

@[simp] theorem queue_requeue (p : Player) (t : Thread) :
    (p.requeue t).queue = p.queue ++ [t] := rfl

@[simp] theorem isAlive_requeue (p : Player) (t : Thread) : (p.requeue t).isAlive := by
  simp [isAlive]

theorem isAlive_iff_next? (p : Player) : p.isAlive ↔ (p.next?).isSome := by
  unfold isAlive next?
  cases p.queue <;> simp

end Player
end CoreWar
