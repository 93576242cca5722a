import CoreWar.Assembly
import CoreWar.Proofs.Arena.Encoding
import CoreWar.Proofs.Checks

/-!
# Where lines are put

A line takes as many bytes as its statement, and each line lies where the lines
before it end.  That is all that the layout knows: a statement is put where its
line lies, and a label stands for the address of the line that defines it, be
it before or behind the line that uses it.  The program consists of the bytes
of the statements in this order, so every statement is found in it again at the
address where its line lies.
-/

namespace CoreWar
namespace Assembly

open Checks

/-! ## Lines and their addresses -/

/-- The number of bytes that a line takes. -/
def Line.size (text : List Char) : Nat :=
  match (Line.ofText text).body with
  | [] => 0
  | body =>
    match Statement.parse body with
    | .ok s => s.size
    | .error _ => 0

/-- A line lies at an address among lines. -/
inductive LiesAt : List (List Char) → Nat → List Char → Prop
  | here {text : List Char} {rest : List (List Char)} : LiesAt (text :: rest) 0 text
  | later {first text : List Char} {rest : List (List Char)} {d : Nat}
      (h : LiesAt rest d text) : LiesAt (first :: rest) (Line.size first + d) text

/-- A line defines a label: the word before its first colon, in capitals. -/
def Line.Defines (text : List Char) (name : String) : Prop :=
  ∃ label, (Line.ofText text).label = some label ∧
    name = String.ofList (Text.upper (Text.trim label))

/-- A label is defined at an address among lines. -/
def DefinedAt (lines : List (List Char)) (name : String) (d : Nat) : Prop :=
  ∃ text, LiesAt lines d text ∧ Line.Defines text name

section Lines

variable {text : List Char}

theorem Line.size_of_body_eq_nil (h : (Line.ofText text).body = []) : Line.size text = 0 := by
  rw [Line.size, h]

theorem Line.size_of_parse {s : Statement} (hbody : (Line.ofText text).body ≠ [])
    (h : Statement.parse (Line.ofText text).body = .ok s) : Line.size text = s.size := by
  unfold Line.size
  split
  next hnil => exact absurd hnil hbody
  next => rw [h]

theorem Line.name_of_labelName {label : List Char} {name : String}
    (h : Line.labelName label = .ok name) :
    name = String.ofList (Text.upper (Text.trim label)) := by
  unfold Line.labelName at h
  dsimp only at h
  split at h
  · cases h
  · cases h
    rfl

theorem definedAt_cons {first : List Char} {rest : List (List Char)} {name : String} {d : Nat} :
    DefinedAt (first :: rest) name d ↔
      (d = 0 ∧ Line.Defines first name) ∨ ∃ t, d = Line.size first + t ∧ DefinedAt rest name t := by
  constructor
  · rintro ⟨text, htext, hname⟩
    cases htext with
    | here => exact .inl ⟨rfl, hname⟩
    | later h => exact .inr ⟨_, rfl, _, h, hname⟩
  · rintro (⟨rfl, hname⟩ | ⟨t, rfl, text, htext, hname⟩)
    · exact ⟨first, .here, hname⟩
    · exact ⟨text, .later htext, hname⟩

end Lines

namespace Layout

variable {l l' : Layout} {text : List Char} {line : Nat} {name : String} {w : UInt16}

/-! ## One line -/

theorem define_eq_ok (h : l.define name = .ok l') :
    l.labels[name]? = none ∧
      l' = { l with labels := l.labels.insert name (UInt16.ofNat l.address) } := by
  unfold define at h
  split at h
  next => cases h
  next hfree =>
    cases h
    refine ⟨?_, rfl⟩
    rw [Std.HashMap.contains_eq_isSome_getElem?] at hfree
    simpa using hfree

theorem define_of_getElem?_eq_none (h : l.labels[name]? = none) :
    l.define name = .ok { l with labels := l.labels.insert name (UInt16.ofNat l.address) } := by
  have hfree : ¬l.labels.contains name = true := by
    rw [Std.HashMap.contains_eq_isSome_getElem?, h]
    decide
  exact if_neg hfree

/-- What the definition of a label adds. -/
theorem getElem?_define (h : l.define name = .ok l') {other : String} :
    l'.labels[other]? = some w ↔
      l.labels[other]? = some w ∨ (other = name ∧ w = UInt16.ofNat l.address) := by
  obtain ⟨hfree, rfl⟩ := define_eq_ok h
  change (l.labels.insert name (UInt16.ofNat l.address))[other]? = some w ↔ _
  rw [Std.HashMap.getElem?_insert]
  by_cases hname : name = other
  · subst hname
    simp [hfree, eq_comm]
  · have hother : other ≠ name := fun e => hname e.symm
    simp [hname, hother]

/-- Defines the label of a line, if it has one. -/
def addLabel (l : Layout) : Option (List Char) → Except (Stop Cause) Layout
  | some label => do l.define (← Line.labelName label)
  | none => .ok l

/-- Puts the statement of a line, if it has one. -/
def addBody (l : Layout) (line : Nat) (body : List Char) : Except (Stop Cause) Layout :=
  if body.isEmpty then .ok l else do return l.place line (← Statement.parse body)

theorem addLine_eq (l : Layout) (line : Nat) (text : List Char) :
    l.addLine line text =
      (l.addLabel (Line.ofText text).label >>=
        fun l₁ => l₁.addBody line (Line.ofText text).body) := by
  unfold addLine addLabel
  dsimp only
  cases (Line.ofText text).label with
  | none => rfl
  | some label =>
      dsimp only
      cases Line.labelName label <;> rfl

/-- What a line does to a layout: first its label is defined, then its statement
is put. -/
theorem addLine_cases (h : l.addLine line text = .ok l') :
    ∃ l₁ : Layout, l₁.address = l.address ∧ l₁.placed = l.placed ∧
      (∀ name w, l₁.labels[name]? = some w ↔
        l.labels[name]? = some w ∨ (Line.Defines text name ∧ w = UInt16.ofNat l.address)) ∧
      (((Line.ofText text).body = [] ∧ l' = l₁) ∨
        ((Line.ofText text).body ≠ [] ∧
          ∃ s, Statement.parse (Line.ofText text).body = .ok s ∧ l' = l₁.place line s)) := by
  rw [addLine_eq] at h
  obtain ⟨l₁, hlabel, h⟩ := bind_eq_ok.mp h
  refine ⟨l₁, ?_⟩
  have hstatement : ((Line.ofText text).body = [] ∧ l' = l₁) ∨
      ((Line.ofText text).body ≠ [] ∧
        ∃ s, Statement.parse (Line.ofText text).body = .ok s ∧ l' = l₁.place line s) := by
    unfold addBody at h
    split at h
    next hbody =>
      cases h
      exact .inl ⟨List.isEmpty_iff.mp hbody, rfl⟩
    next hbody =>
      obtain ⟨s, hs, h⟩ := bind_eq_ok.mp h
      cases h
      exact .inr ⟨fun hnil => hbody (List.isEmpty_iff.mpr hnil), s, hs, rfl⟩
  cases htext : (Line.ofText text).label with
  | none =>
      rw [htext] at hlabel
      cases hlabel
      have hnone : ∀ name, ¬Line.Defines text name := by
        rintro name ⟨label, hsome, -⟩
        rw [htext] at hsome
        cases hsome
      exact ⟨rfl, rfl, fun name w => by simp [hnone name], hstatement⟩
  | some label =>
      rw [htext] at hlabel
      obtain ⟨name, hname, hdefine⟩ := bind_eq_ok.mp hlabel
      have hdefines : ∀ other, Line.Defines text other ↔ other = name := by
        intro other
        rw [Line.name_of_labelName hname]
        constructor
        · rintro ⟨label', hsome, rfl⟩
          rw [htext] at hsome
          cases hsome
          rfl
        · rintro rfl
          exact ⟨label, htext, rfl⟩
      refine ⟨?_, ?_, fun other w => ?_, hstatement⟩
      · rw [(define_eq_ok hdefine).2]
      · rw [(define_eq_ok hdefine).2]
      · rw [getElem?_define hdefine, hdefines]

theorem address_addLine (h : l.addLine line text = .ok l') :
    l'.address = l.address + Line.size text := by
  obtain ⟨l₁, haddress, -, -, ⟨hbody, rfl⟩ | ⟨hbody, s, hs, rfl⟩⟩ := addLine_cases h
  · rw [haddress, Line.size_of_body_eq_nil hbody]
    rfl
  · change l₁.address + s.size = _
    rw [haddress, Line.size_of_parse hbody hs]

theorem getElem?_addLine (h : l.addLine line text = .ok l') :
    l'.labels[name]? = some w ↔
      l.labels[name]? = some w ∨ (Line.Defines text name ∧ w = UInt16.ofNat l.address) := by
  obtain ⟨l₁, -, -, hlabels, ⟨-, rfl⟩ | ⟨-, s, -, rfl⟩⟩ := addLine_cases h
  · exact hlabels name w
  · exact hlabels name w

theorem placed_addLine (h : l.addLine line text = .ok l') :
    ((Line.ofText text).body = [] ∧ l'.placed = l.placed) ∨
      ((Line.ofText text).body ≠ [] ∧ ∃ s, Statement.parse (Line.ofText text).body = .ok s ∧
        l'.placed = ⟨line, l.address, s⟩ :: l.placed) := by
  obtain ⟨l₁, haddress, hplaced, -, ⟨hbody, rfl⟩ | ⟨hbody, s, hs, rfl⟩⟩ := addLine_cases h
  · exact .inl ⟨hbody, hplaced⟩
  · refine .inr ⟨hbody, s, hs, ?_⟩
    change ⟨line, l₁.address, s⟩ :: l₁.placed = _
    rw [haddress, hplaced]

/-! ## All lines -/

variable {lines : List (List Char)}

theorem addLines_cons_eq_ok {first : List Char} {rest : List (List Char)}
    (h : l.addLines ((first :: rest).zipIdx line) = .ok l') :
    ∃ l₁, l.addLine line first = .ok l₁ ∧ l₁.addLines (rest.zipIdx (line + 1)) = .ok l' := by
  rw [List.zipIdx_cons, addLines, List.foldlM_cons] at h
  obtain ⟨l₁, hfirst, hrest⟩ := bind_eq_ok.mp h
  refine ⟨l₁, ?_, hrest⟩
  cases hadd : l.addLine line first with
  | error cause =>
      rw [hadd] at hfirst
      cases hfirst
  | ok l₂ =>
      rw [hadd] at hfirst
      cases hfirst
      rfl

/-- The labels of a layout are those that its lines define, each at the address of
its line. -/
theorem getElem?_addLines (h : l.addLines (lines.zipIdx line) = .ok l') :
    l'.labels[name]? = some w ↔
      l.labels[name]? = some w ∨
        ∃ d, DefinedAt lines name d ∧ w = UInt16.ofNat (l.address + d) := by
  induction lines generalizing l line with
  | nil =>
      cases h
      constructor
      · exact .inl
      · rintro (h | ⟨d, ⟨text, htext, -⟩, -⟩)
        · exact h
        · cases htext
  | cons first rest ih =>
      obtain ⟨l₁, hfirst, hrest⟩ := addLines_cons_eq_ok h
      rw [ih hrest, getElem?_addLine hfirst, address_addLine hfirst, or_assoc]
      apply or_congr_right
      constructor
      · rintro (⟨hname, rfl⟩ | ⟨d, hd, rfl⟩)
        · exact ⟨0, definedAt_cons.mpr (.inl ⟨rfl, hname⟩), rfl⟩
        · exact ⟨_, definedAt_cons.mpr (.inr ⟨d, rfl, hd⟩), by rw [Nat.add_assoc]⟩
      · rintro ⟨d, hd, rfl⟩
        obtain ⟨rfl, hname⟩ | ⟨t, rfl, ht⟩ := definedAt_cons.mp hd
        · exact .inl ⟨hname, rfl⟩
        · exact .inr ⟨t, ht, by rw [Nat.add_assoc]⟩

/-- The bytes of what is laid out end where the next statement is put. -/
def Tight (l : Layout) : Prop :=
  ∀ labels parts, l.placed.reverse.mapM (Placed.bytes labels) = .ok parts →
    parts.flatten.length = l.address

theorem tight_empty : Tight {} := by
  intro labels parts h
  cases h
  rfl

theorem exists_of_bytes_placed {labels : Std.HashMap String UInt16} {p : Placed}
    {bytes : List UInt8} (h : p.bytes labels = .ok bytes) :
    ∃ ws, p.statement.slots.mapM (resolve labels p.address) = .ok ws ∧
      bytes = p.statement.head ++ ws.flatMap Word.bytes := by
  unfold Placed.bytes at h
  split at h
  next ws hws =>
    cases h
    exact ⟨ws, hws, rfl⟩
  next => cases h

theorem length_bytes_placed {labels : Std.HashMap String UInt16} {p : Placed}
    {bytes : List UInt8} (h : p.bytes labels = .ok bytes) : bytes.length = p.statement.size := by
  obtain ⟨ws, hws, rfl⟩ := exists_of_bytes_placed h
  rw [List.length_append, Word.length_flatMap_bytes, length_of_mapM_eq_ok hws, Statement.size]

theorem Tight.addLine (hl : l.Tight) (h : l.addLine line text = .ok l') : l'.Tight := by
  rw [Tight, address_addLine h]
  obtain ⟨hbody, hplaced⟩ | ⟨hbody, s, hs, hplaced⟩ := placed_addLine h
  · rw [hplaced, Line.size_of_body_eq_nil hbody]
    exact hl
  · intro labels parts hparts
    rw [hplaced, List.reverse_cons] at hparts
    obtain ⟨done, last, hdone, hlast, rfl⟩ := mapM_append_eq_ok.mp hparts
    obtain ⟨bytes, rest, hbytes, hrest, rfl⟩ := mapM_cons_eq_ok.mp hlast
    obtain rfl : [] = rest := Except.ok.inj hrest
    rw [List.flatten_append, List.length_append, hl labels done hdone, List.flatten_singleton,
      length_bytes_placed hbytes, Line.size_of_parse hbody hs]

theorem placed_addLines (h : l.addLines (lines.zipIdx line) = .ok l') :
    ∃ later, l'.placed = later ++ l.placed := by
  induction lines generalizing l line with
  | nil =>
      cases h
      exact ⟨[], rfl⟩
  | cons first rest ih =>
      obtain ⟨l₁, hfirst, hrest⟩ := addLines_cons_eq_ok h
      obtain ⟨later, hlater⟩ := ih hrest
      obtain ⟨-, hplaced⟩ | ⟨-, s, -, hplaced⟩ := placed_addLine hfirst
      · exact ⟨later, by rw [hlater, hplaced]⟩
      · exact ⟨later ++ [⟨line, l.address, s⟩], by rw [hlater, hplaced, List.append_assoc]; rfl⟩

/-- A statement is put where its line lies, right behind the bytes of what was put
before it. -/
theorem exists_placed {d : Nat} (hlies : LiesAt lines d text)
    (hbody : (Line.ofText text).body ≠ []) (hl : l.Tight)
    (h : l.addLines (lines.zipIdx line) = .ok l') :
    ∃ (l₁ : Layout) (later : List Placed) (number : Nat) (s : Statement),
      Statement.parse (Line.ofText text).body = .ok s ∧ l₁.Tight ∧
        l₁.address = l.address + d ∧
        l'.placed = later ++ ⟨number, l.address + d, s⟩ :: l₁.placed := by
  induction hlies generalizing l line with
  | here =>
      obtain ⟨l₁, hfirst, hrest⟩ := addLines_cons_eq_ok h
      obtain ⟨later, hlater⟩ := placed_addLines hrest
      obtain ⟨hnil, -⟩ | ⟨-, s, hs, hplaced⟩ := placed_addLine hfirst
      · exact absurd hnil hbody
      · exact ⟨l, later, line, s, hs, hl, rfl, by rw [hlater, hplaced]; rfl⟩
  | later _ ih =>
      obtain ⟨l₁, hfirst, hrest⟩ := addLines_cons_eq_ok h
      obtain ⟨l₂, later, number, s, hs, htight, haddress, hplaced⟩ :=
        ih hbody (hl.addLine hfirst) hrest
      rw [address_addLine hfirst, Nat.add_assoc] at haddress hplaced
      exact ⟨l₂, later, number, s, hs, htight, haddress, hplaced⟩

end Layout

/-! ## Programs -/

/-- In an assembled program the bytes of a statement lie where its line does, with
the labels that the lines define. -/
theorem exists_bytes_of_ofText {text line : List Char} {program : List UInt8} {d : Nat}
    (h : ofText text = .ok program) (hlies : LiesAt (Text.split '\n' text) d line)
    (hbody : (Line.ofText line).body ≠ []) :
    ∃ (labels : Std.HashMap String UInt16) (number : Nat) (s : Statement)
      (front bytes back : List UInt8),
      Statement.parse (Line.ofText line).body = .ok s ∧
        (Placed.mk number d s).bytes labels = .ok bytes ∧
        program = front ++ bytes ++ back ∧ front.length = d ∧ bytes.length = Line.size line ∧
        ∀ name w, labels[name]? = some w ↔
          ∃ t, DefinedAt (Text.split '\n' text) name t ∧ w = UInt16.ofNat t := by
  obtain ⟨l, hl, hprogram⟩ := bind_eq_ok.mp h
  obtain ⟨parts, hparts, rfl⟩ := map_eq_ok.mp hprogram
  obtain ⟨l₁, later, number, s, hs, htight, haddress, hplaced⟩ :=
    Layout.exists_placed hlies hbody Layout.tight_empty hl
  change l₁.address = 0 + d at haddress
  change l.placed = later ++ ⟨number, 0 + d, s⟩ :: l₁.placed at hplaced
  rw [Nat.zero_add] at haddress hplaced
  rw [hplaced, List.reverse_append, List.reverse_cons, List.append_assoc] at hparts
  obtain ⟨front, rest, hfront, hrest, rfl⟩ := mapM_append_eq_ok.mp hparts
  rw [List.singleton_append] at hrest
  obtain ⟨bytes, back, hbytes, -, rfl⟩ := mapM_cons_eq_ok.mp hrest
  refine ⟨l.labels, number, s, front.flatten, bytes, back.flatten, hs, hbytes, ?_, ?_, ?_, ?_⟩
  · rw [List.flatten_append, List.flatten_cons, List.append_assoc]
  · rw [htight _ _ hfront, haddress]
  · rw [Layout.length_bytes_placed hbytes, Line.size_of_parse hbody hs]
  · intro name w
    rw [Layout.getElem?_addLines hl]
    have hempty : (∅ : Std.HashMap String UInt16)[name]? ≠ some w := by simp
    change (∅ : Std.HashMap String UInt16)[name]? = some w ∨ _ ↔ _
    rw [or_iff_right hempty]
    change (∃ t, DefinedAt _ name t ∧ w = UInt16.ofNat (0 + t)) ↔ _
    simp only [Nat.zero_add]

end Assembly
end CoreWar
