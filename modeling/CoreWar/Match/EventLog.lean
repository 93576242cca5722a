import CoreWar.Json.Reader
import CoreWar.Match.Event

/-!
# Event logs

A log keeps events in the order in which they happen.  It may have room for a
number of events only; the first event that finds no room is refused, and the
log remembers that.  As text a log has one line for each event.
-/

namespace CoreWar

/-- The events of a match so far. -/
structure EventLog where
  events : Array Event := #[]
  /-- The number of events that the log can take; none if there is no limit. -/
  capacity : Option Nat := none
  /-- Whether an event has been refused. -/
  refused : Bool := false

namespace EventLog

/-- Whether there is no room for another event. -/
def isFull (l : EventLog) : Bool :=
  match l.capacity with
  | some n => n ≤ l.events.size
  | none => false

/-- Takes an event, or refuses it for lack of room. -/
def push (l : EventLog) (e : Event) : EventLog :=
  if l.isFull then
    { l with refused := true }
  else
    match l with
    | ⟨events, capacity, refused⟩ => ⟨events.push e, capacity, refused⟩

/-- The text of events, one line for each. -/
def textOf (events : List Event) : List Char := events.flatMap fun e => e.text ++ ['\n']

/-- The event on a line of a log. -/
def eventOf? (line : List Char) : Option Event :=
  (Json.parse? (String.ofList line)).bind Event.ofJson?

theorem isFull_of_unlimited {l : EventLog} (h : l.capacity = none) : l.isFull = false := by
  simp [isFull, h]

theorem events_push_of_room {l : EventLog} (h : l.isFull = false) (e : Event) :
    (l.push e).events = l.events.push e := by
  simp [push, h]

theorem events_push_of_full {l : EventLog} (h : l.isFull = true) (e : Event) :
    (l.push e).events = l.events := by
  simp [push, h]

end EventLog
end CoreWar
