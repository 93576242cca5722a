import CoreWar.Assembly.Statement
import Std.Data.HashMap

/-!
# Assembly

A program is laid out line by line: each statement gets an address, each label
the address of what follows it.  Once all lines are laid out, the distances to
the labels are filled in.  So a label may be used before it is defined, and an
undefined one is reported only if every line is in order by itself.
-/

namespace CoreWar
namespace Assembly

/-- A statement in its place. -/
structure Placed where
  line : Nat
  address : Nat
  statement : Statement
  deriving DecidableEq, Repr

/-- What has been laid out so far. -/
structure Layout where
  /-- The address of the next statement. -/
  address : Nat := 0
  labels : Std.HashMap String UInt16 := ∅
  /-- The statements, the last one first. -/
  placed : List Placed := []

namespace Layout

/-- Gives a label the current address. -/
def define (l : Layout) (name : String) : Except (Stop Cause) Layout :=
  if l.labels.contains name then
    .error (.fault (.duplicateLabel name))
  else
    .ok { l with labels := l.labels.insert name (UInt16.ofNat l.address) }

/-- Puts a statement at the current address. -/
def place (l : Layout) (line : Nat) (s : Statement) : Layout :=
  { l with
    address := l.address + s.size
    placed := ⟨line, l.address, s⟩ :: l.placed }

/-- Lays out what a line holds. -/
def addLine (l : Layout) (line : Nat) (text : List Char) : Except (Stop Cause) Layout := do
  let parts := Line.ofText text
  let l ←
    match parts.label with
    | some label => l.define (← Line.labelName label)
    | none => pure l
  if parts.body.isEmpty then
    return l
  else
    return l.place line (← Statement.parse parts.body)

/-- Lays out numbered lines. -/
def addLines (l : Layout) (lines : List (List Char × Nat)) : Except (Stop Error) Layout :=
  lines.foldlM
    (fun l x => (l.addLine x.2 x.1).mapError (Stop.map fun cause => ⟨x.2, cause⟩)) l

end Layout

/-- The word of a slot in a statement at an address. -/
def resolve (labels : Std.HashMap String UInt16) (address : Nat) : Slot → Except (Stop Cause) UInt16
  | .value w => .ok w
  | .label name =>
    match labels[name]? with
    | some target => .ok (target - UInt16.ofNat address)
    | none => .error (.fault (.undefinedLabel name))

/-- The bytes of a statement in its place. -/
def Placed.bytes (labels : Std.HashMap String UInt16) (p : Placed) :
    Except (Stop Error) (List UInt8) :=
  match p.statement.slots.mapM (resolve labels p.address) with
  | .ok ws => .ok (p.statement.head ++ ws.flatMap Word.bytes)
  | .error stop => .error (stop.map fun cause => ⟨p.line, cause⟩)

/-- The bytes of a layout. -/
def Layout.bytes (l : Layout) : Except (Stop Error) (List UInt8) :=
  (l.placed.reverse.mapM (Placed.bytes l.labels)).map List.flatten

/-- The program that a list of characters spells. -/
def ofText (text : List Char) : Except (Stop Error) (List UInt8) := do
  let layout ← Layout.addLines {} ((Text.split '\n' text).zipIdx 1)
  layout.bytes

end Assembly

/-- The program that an assembly text spells. -/
def assemble (source : String) : Except (Assembly.Stop Assembly.Error) (List UInt8) :=
  Assembly.ofText source.toList

end CoreWar
