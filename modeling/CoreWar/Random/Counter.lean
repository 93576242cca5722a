import CoreWar.Random.Source

/-!
# Counting sources

A counting source gives words at equal distances, which makes every draw
predictable.  A word of thirty-two bits is the lower half of one of
sixty-four.
-/

namespace CoreWar
namespace Random

/-- A source that counts. -/
structure Counter where
  /-- The next word. -/
  next : UInt64
  step : UInt64
  deriving DecidableEq, Repr

instance : Source Counter where
  word32 c := (c.next.toUInt32, ⟨c.next + c.step, c.step⟩)
  word64 c := (c.next, ⟨c.next + c.step, c.step⟩)

end Random
end CoreWar
