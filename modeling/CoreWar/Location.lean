/-!
# Operand locations

Where an operand of an instruction lives, and how an address held there is
read.  A location is encoded in four bits.  Destination and source have tables
of their own: only a source may name the instruction pointer.
-/

namespace CoreWar

/-- How a value that serves as an address is read. -/
inductive AccessMode where
  /-- The value is the address. -/
  | direct
  /-- The value is a distance from the instruction pointer. -/
  | relative
  deriving DecidableEq, Repr, Inhabited

namespace AccessMode

/-- The mode of a mode bit. -/
def ofBit (b : Bool) : AccessMode := if b then relative else direct

/-- The mode bit of a mode. -/
def bit : AccessMode → UInt8
  | direct => 0
  | relative => 1

/-- The address that a value stands for at an instruction pointer. -/
def address (mode : AccessMode) (ip value : UInt16) : UInt16 :=
  match mode with
  | direct => value
  | relative => ip + value

end AccessMode

/-- The place of an operand in an instruction. -/
inductive Position where
  | destination
  | source
  deriving DecidableEq, Repr

/-- The position with the given operand number. -/
def Position.ofNumber? (n : UInt8) : Option Position :=
  if n = 1 then some .destination else if n = 2 then some .source else none

/-- Where an operand lives. -/
inductive Location where
  | al | ah | bl | bh | cl | ch | ax | bx | cx
  /-- The instruction pointer, which can only be read. -/
  | ip
  /-- Memory at the address in `ax`. -/
  | pax
  /-- Memory at the address in `bx`. -/
  | pbx
  /-- Memory at the address in `cx`. -/
  | pcx
  /-- The word that follows the instruction's header. -/
  | imd
  /-- Memory at the address in that word. -/
  | pimd
  /-- No location: using it is a fault. -/
  | invalid
  deriving DecidableEq, Repr, Inhabited

/-- The locations of a position in the order of their four-bit codes. -/
def Position.table : Position → List Location
  | .destination => [.al, .ah, .bl, .bh, .cl, .ch, .ax, .bx, .cx, .pax, .pbx, .pcx, .imd, .pimd]
  | .source => [.al, .ah, .bl, .bh, .cl, .ch, .ax, .bx, .cx, .pax, .pbx, .pcx, .imd, .pimd, .ip]

namespace Location

/-- All locations. -/
def all : List Location :=
  [.al, .ah, .bl, .bh, .cl, .ch, .ax, .bx, .cx, .ip, .pax, .pbx, .pcx, .imd, .pimd, .invalid]

/-- The location of the low four bits of a byte. -/
def ofNibble (p : Position) (n : UInt8) : Location := p.table.getD (n.toNat % 16) invalid

/-- The four-bit code of a location, if the position admits it. -/
def nibble? (p : Position) (l : Location) : Option UInt8 :=
  (p.table.findIdx? (· == l)).map UInt8.ofNat

/-- Whether a word of the instruction belongs to the location. -/
def hasImmediate : Location → Bool
  | imd | pimd => true
  | _ => false

/-- The name of a location. -/
def name : Location → String
  | al => "AL" | ah => "AH" | bl => "BL" | bh => "BH" | cl => "CL" | ch => "CH"
  | ax => "AX" | bx => "BX" | cx => "CX" | ip => "IP"
  | pax => "PAX" | pbx => "PBX" | pcx => "PCX" | imd => "IMD" | pimd => "PIMD"
  | invalid => "NONE"

/-- The location with the given name, written in capitals. -/
def ofName? (s : String) : Option Location := all.find? (·.name == s)

theorem length_table (p : Position) : p.table.length ≤ 15 := by
  cases p <;> decide

/-- Reading the code of a location gives the location back. -/
theorem ofNibble_of_nibble? {p : Position} {l : Location} {n : UInt8}
    (h : l.nibble? p = some n) : ofNibble p n = l := by
  obtain ⟨k, hk, rfl⟩ := Option.map_eq_some_iff.mp h
  obtain ⟨hlt, heq, -⟩ := List.findIdx?_eq_some_iff_getElem.mp hk
  have hbound := length_table p
  have hmod : (UInt8.ofNat k).toNat % 16 = k := by
    simp only [UInt8.toNat_ofNat']
    omega
  rw [ofNibble, hmod, List.getD_eq_getElem?_getD, List.getElem?_eq_getElem hlt]
  simpa using heq

/-- Every location but the missing one has a code where it can be read. -/
theorem nibble?_ofNibble {p : Position} {n : UInt8} (h : ofNibble p n ≠ invalid) :
    (ofNibble p n).nibble? p = some (n % 16) := by
  have key : ∀ k : Fin 16, ofNibble p (UInt8.ofNat k.val) ≠ invalid →
      (ofNibble p (UInt8.ofNat k.val)).nibble? p = some (UInt8.ofNat k.val) := by
    cases p <;> decide
  have hn : n % 16 = UInt8.ofNat (n.toNat % 16) := by
    apply UInt8.toNat_inj.mp
    simp only [UInt8.toNat_mod, UInt8.toNat_ofNat', UInt8.reduceToNat]
    omega
  have hsame : ofNibble p (UInt8.ofNat (n.toNat % 16)) = ofNibble p n := by
    simp only [ofNibble, UInt8.toNat_ofNat']
    congr 1
    omega
  have := key ⟨n.toNat % 16, by omega⟩
  rw [hsame] at this
  rw [hn]
  exact this h

end Location
end CoreWar
