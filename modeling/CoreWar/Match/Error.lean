import CoreWar.Arena

/-!
# Match errors

Why a match cannot be started or played on.
-/

namespace CoreWar

/-- Why a match cannot be started or played on. -/
inductive MatchError where
  /-- A program does not fit where it was placed. -/
  | load (e : LoadError)
  /-- A player may not have even one thread. -/
  | noThreads (pid : UInt8)
  /-- The source of draws never gave a number that could be used. -/
  | noDraw
  /-- The log had no room for an event. -/
  | logFull
  /-- No thread is left to run, and yet too many players count as alive. -/
  | endless
  deriving DecidableEq, Repr

/-- The wording of a match error. -/
def MatchError.message : MatchError → String
  | load e => s!"placement error: {e.message}"
  | noThreads pid => s!"player {pid.toNat} may not start any threads"
  | noDraw => "placement error: no usable draw"
  | logFull => "failed to write event: sink full"
  | endless => "no thread is left to run"

end CoreWar
