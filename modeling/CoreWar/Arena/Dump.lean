import CoreWar.Arena
import CoreWar.Text.Hex

/-!
# Dumps of the arena

A dump shows the bytes of the whole arena in order, sixty-four to a line.
-/

namespace CoreWar
namespace Arena

/-- The number of bytes on a line of a dump. -/
def dumpWidth : Nat := 64

/-- The bytes on a line of a dump. -/
def dumpBytes (m : Arena) (line : Nat) : List UInt8 :=
  (List.range dumpWidth).map fun i => m.byte (UInt16.ofNat (line * dumpWidth + i))

/-- The lines of a dump. -/
def dumpLines (m : Arena) : List (List Char) :=
  (List.range (size / dumpWidth)).map fun line => Text.hexBytes (m.dumpBytes line)

/-- The dump of the arena. -/
def dump (m : Arena) : String := String.ofList (m.dumpLines.flatMap (· ++ ['\n']))

end Arena
end CoreWar
