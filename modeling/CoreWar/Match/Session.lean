import CoreWar.Match.Error
import CoreWar.Match.EventLog
import CoreWar.Match.Game

/-!
# Playing a match

A match is played in rounds.  In a round every player gets a turn, in the order
of the players, in which the thread at the head of its queue works until the
cycles of the turn are spent or the thread fails.  Rounds go on until the game
is over.

Every charge is an event.  If the log refuses an event, the match stops at once:
what the event tells of has happened, but the thread in hand is lost.
-/

namespace CoreWar

/-- A game and the log that it is played into. -/
structure Session where
  game : Game
  log : EventLog

/-- How a match stops. -/
inductive Ending where
  | over
  /-- The log refused an event. -/
  | refused
  /-- A round passed in which nobody could play. -/
  | stalled
  deriving DecidableEq, Repr

namespace Session

/-- Lets a thread of a player work for a budget and puts it back if it
survives. -/
def work (s : Session) (index : Nat) (pid : UInt8) (t : Thread) (budget : Nat) : Session :=
  match s with
  | ⟨game, log⟩ =>
    if _h : budget = 0 then
      ⟨game.requeue index t, log⟩
    else
      match _hc : game.charge pid t budget with
      | ⟨next, after, left, event, fault?⟩ =>
        let log := log.push event
        if log.refused then
          ⟨next, log⟩
        else if fault?.isSome then
          ⟨next.kill index pid after, log⟩
        else
          work ⟨next, log⟩ index pid after left
termination_by budget
decreasing_by
  have := game.budget_charge_lt pid t _h
  simpa [_hc] using this

/-- Gives the player with an index its turn.  A player without threads has none,
and nobody plays on after the log has refused an event. -/
def turn (s : Session) (index : Nat) : Session :=
  match s with
  | ⟨game, log⟩ =>
    if log.refused then
      ⟨game, log⟩
    else
      match game.next? index with
      | none => ⟨game, log⟩
      | some (t, p) =>
        let budget := p.turnBudget game.rules.cyclesPerTurn
        work ⟨game.setPlayer index p, log⟩ index p.pid t budget

/-- Gives every player its turn. -/
def round (s : Session) : Session := (List.range s.game.players.size).foldl turn s

theorem rules_work (s : Session) (index : Nat) (pid : UInt8) (t : Thread) (budget : Nat) :
    (s.work index pid t budget).game.rules = s.game.rules := by
  fun_induction work s index pid t budget with
  | case1 => rfl
  | case2 t budget game log h next after left event fault? hc =>
    simpa [hc] using game.rules_charge pid t budget
  | case3 t budget game log h next after left event fault? hc =>
    simpa [hc] using game.rules_charge pid t budget
  | case4 t budget game log h next after left event fault? hc _ _ _ ih =>
    rw [ih]
    simpa [hc] using game.rules_charge pid t budget

theorem rules_turn (s : Session) (index : Nat) : (s.turn index).game.rules = s.game.rules := by
  unfold turn
  split
  split
  · rfl
  · split
    · rfl
    · rw [rules_work, Game.rules_setPlayer]

theorem rules_foldl_turn (s : Session) (indices : List Nat) :
    (indices.foldl turn s).game.rules = s.game.rules := by
  induction indices generalizing s with
  | nil => rfl
  | cons i is ih => rw [List.foldl_cons, ih, rules_turn]

theorem rules_round (s : Session) : s.round.game.rules = s.game.rules :=
  s.rules_foldl_turn _

/-- Plays rounds until the match stops.  Each round but a last, idle one moves
the count of cycles towards its limit. -/
def rounds (s : Session) : Session × Ending :=
  if s.log.refused then
    (s, .refused)
  else if _over : s.game.isOver then
    (s, .over)
  else
    let cycle := s.game.cycle
    let after := s.round
    if _later : cycle < after.game.cycle then
      rounds after
    else
      (after, .stalled)
termination_by s.game.rules.maxCycles - s.game.cycle
decreasing_by
  have hmax : s.game.cycle < s.game.rules.maxCycles := by
    simp only [Game.isOver, Bool.or_eq_true, decide_eq_true_eq, not_or] at _over
    omega
  rw [rules_round]
  exact Nat.sub_lt_sub_left hmax _later

/-- Begins the match, if it has not begun. -/
def opened (s : Session) : Session :=
  match s with
  | ⟨⟨rules, arena, players, starts, cycle, alive, finished⟩, log⟩ =>
    if cycle = 0 then
      let log := log.push (.init 0 starts)
      ⟨⟨rules, arena, players, starts, if log.refused then 0 else 1, alive, finished⟩, log⟩
    else
      ⟨⟨rules, arena, players, starts, cycle, alive, finished⟩, log⟩

end Session

/-- A match as far as it was played. -/
structure Played where
  game : Game
  events : List Event
  result : Except MatchError Report

namespace Game

/-- Plays a match to its end, with a log of the given capacity. -/
def play (g : Game) (capacity : Option Nat) : Played :=
  match (Session.mk g { capacity }).opened.rounds with
  | (⟨game, log⟩, .over) =>
    let game := game.finish
    ⟨game, log.events.toList, .ok game.report⟩
  | (⟨game, log⟩, .refused) => ⟨game, log.events.toList, .error .logFull⟩
  | (⟨game, log⟩, .stalled) => ⟨game, log.events.toList, .error .endless⟩

end Game
end CoreWar
