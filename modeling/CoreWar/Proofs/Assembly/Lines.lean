import CoreWar.Proofs.Assembly.Layout
import CoreWar.Proofs.Text.Lines

/-!
# Lines without labels

A line that neither defines nor uses a label stands for the same bytes wherever
it is put.  So what such lines assemble to on their own says what they assemble
to together: one after the other.
-/

namespace CoreWar
namespace Assembly

open Checks

/-- A statement stands for bytes: no label is needed to know them. -/
def Statement.StandsFor (s : Statement) (bytes : List UInt8) : Prop :=
  ∃ ws : List UInt16, s.slots = ws.map Slot.value ∧ bytes = s.head ++ ws.flatMap Word.bytes

/-- A line stands for bytes: it defines no label, and its statement, if there is
one, stands for them. -/
def Line.StandsFor (l : Line) (bytes : List UInt8) : Prop :=
  l.label = none ∧
    ((l.body = [] ∧ bytes = []) ∨
      (l.body ≠ [] ∧ ∃ s, Statement.parse l.body = .ok s ∧ s.StandsFor bytes))

/-! ## Statements -/

/-- Where there are no labels, only known slots can be filled in. -/
theorem eq_map_value_of_mapM_resolve {address : Nat} {slots : List Slot} {ws : List UInt16}
    (h : slots.mapM (resolve ∅ address) = .ok ws) : slots = ws.map Slot.value := by
  have hslots : slots.map id = ws.map Slot.value := by
    refine (map_eq_map_of_mapM_eq_ok (fun slot w hw => ?_) h).symm
    cases slot with
    | value v =>
        cases hw
        rfl
    | label name => simp [resolve] at hw
  rwa [List.map_id] at hslots

theorem Statement.StandsFor.bytes_placed {s : Statement} {bytes : List UInt8}
    (h : s.StandsFor bytes) (labels : Std.HashMap String UInt16) (line address : Nat) :
    (Placed.mk line address s).bytes labels = .ok bytes := by
  obtain ⟨ws, hslots, rfl⟩ := h
  have hvalue : ∀ w, resolve labels address (.value w) = .ok w := fun _ => rfl
  have hfilled : (ws.map Slot.value).mapM (resolve labels address) = .ok ws :=
    mapM_map_eq_ok hvalue ws
  rw [Placed.bytes]
  dsimp only
  rw [hslots, hfilled]

theorem Statement.standsFor_of_bytes_placed {s : Statement} {bytes : List UInt8}
    {line address : Nat} (h : (Placed.mk line address s).bytes ∅ = .ok bytes) :
    s.StandsFor bytes := by
  obtain ⟨ws, hws, rfl⟩ := Layout.exists_of_bytes_placed h
  exact ⟨ws, eq_map_value_of_mapM_resolve hws, rfl⟩

/-! ## Layouts -/

/-- What is laid out stands for bytes, whatever labels there are. -/
def Layout.StandsFor (l : Layout) (bytes : List UInt8) : Prop :=
  ∀ labels, (l.placed.reverse.mapM (Placed.bytes labels)).map List.flatten = .ok bytes

namespace Layout

theorem standsFor_empty : StandsFor {} [] := fun _ => rfl

theorem StandsFor.place {l : Layout} {done bytes : List UInt8} {s : Statement}
    (h : l.StandsFor done) (hs : s.StandsFor bytes) (line : Nat) :
    (l.place line s).StandsFor (done ++ bytes) := by
  intro labels
  obtain ⟨parts, hparts, hdone⟩ := map_eq_ok.mp (h labels)
  change ((⟨line, l.address, s⟩ :: l.placed).reverse.mapM (Placed.bytes labels)).map List.flatten
    = .ok (done ++ bytes)
  rw [List.reverse_cons, List.mapM_append, hparts, List.mapM_cons, hs.bytes_placed, ← hdone]
  change Except.ok (parts ++ [bytes]).flatten = .ok (parts.flatten ++ bytes)
  rw [List.flatten_append, List.flatten_singleton]

/-- A line that defines no label is laid out as its statement is, if it has one. -/
theorem addLine_of_label_eq_none {text : List Char} (h : (Line.ofText text).label = none)
    (l : Layout) (line : Nat) :
    l.addLine line text =
      if (Line.ofText text).body = [] then
        .ok l
      else
        (Statement.parse (Line.ofText text).body).map (l.place line) := by
  rw [addLine_eq, h]
  change l.addBody line (Line.ofText text).body = _
  simp only [addBody, List.isEmpty_iff]
  split
  · rfl
  · cases Statement.parse (Line.ofText text).body <;> rfl

theorem StandsFor.addLine {l : Layout} {done bytes : List UInt8} {text : List Char}
    (h : l.StandsFor done) (ht : (Line.ofText text).StandsFor bytes) (line : Nat) :
    ∃ l', l.addLine line text = .ok l' ∧ l'.StandsFor (done ++ bytes) := by
  obtain ⟨hlabel, ⟨hbody, rfl⟩ | ⟨hbody, s, hparse, hs⟩⟩ := ht
  · refine ⟨l, ?_, by rwa [List.append_nil]⟩
    rw [addLine_of_label_eq_none hlabel, if_pos hbody]
  · refine ⟨l.place line s, ?_, h.place hs line⟩
    rw [addLine_of_label_eq_none hlabel, if_neg hbody, hparse]
    rfl

/-- Lines that stand for bytes are laid out one after the other. -/
theorem StandsFor.addLines {α : Type} {text : α → List Char} {bytes : α → List UInt8}
    {items : List α} (hitems : ∀ x ∈ items, (Line.ofText (text x)).StandsFor (bytes x))
    {l : Layout} {done : List UInt8} (h : l.StandsFor done) (line : Nat) :
    ∃ l', l.addLines ((items.map text).zipIdx line) = .ok l' ∧
      l'.StandsFor (done ++ items.flatMap bytes) := by
  induction items generalizing l done line with
  | nil => exact ⟨l, rfl, by rwa [List.flatMap_nil, List.append_nil]⟩
  | cons x xs ih =>
      rw [List.forall_mem_cons] at hitems
      obtain ⟨l₁, hadd, h₁⟩ := h.addLine hitems.1 line
      obtain ⟨l₂, hrest, h₂⟩ := ih hitems.2 h₁ (line + 1)
      refine ⟨l₂, ?_, ?_⟩
      · rw [List.map_cons, List.zipIdx_cons, Layout.addLines, List.foldlM_cons, hadd]
        exact hrest
      · rw [List.flatMap_cons, ← List.append_assoc]
        exact h₂

end Layout

/-! ## Texts -/

theorem ofText_eq_ok_of_standsFor {α : Type} {text : α → List Char} {bytes : α → List UInt8}
    {items : List α} (hline : ∀ x ∈ items, '\n' ∉ text x)
    (hitems : ∀ x ∈ items, (Line.ofText (text x)).StandsFor (bytes x)) :
    ofText (Text.join ['\n'] (items.map text)) = .ok (items.flatMap bytes) := by
  cases items with
  | nil => rfl
  | cons x xs =>
      have hsplit : Text.split '\n' (Text.join ['\n'] ((x :: xs).map text))
          = (x :: xs).map text := by
        refine Text.split_join (List.cons_ne_nil _ _) ?_
        rw [List.forall_mem_map]
        exact hline
      obtain ⟨l, hl, hbytes⟩ := Layout.standsFor_empty.addLines hitems 1
      rw [ofText, hsplit, hl]
      exact hbytes l.labels

theorem label_ofText_eq_none {text : List Char} (h : ':' ∉ text) :
    Line.ofText text = ⟨none, Text.trim (text.takeWhile (· ≠ ';'))⟩ := by
  have hmem : ':' ∉ Text.trim (text.takeWhile (· ≠ ';')) := fun hc =>
    h ((List.takeWhile_sublist _).mem (Text.mem_of_mem_trim hc))
  exact if_neg hmem

/-- A line without a colon that assembles on its own stands for its bytes. -/
theorem standsFor_of_ofText {text : List Char} {bytes : List UInt8} (hline : '\n' ∉ text)
    (hlabel : ':' ∉ text) (h : ofText text = .ok bytes) : (Line.ofText text).StandsFor bytes := by
  have hnone : (Line.ofText text).label = none := by rw [label_ofText_eq_none hlabel]
  -- The only line is laid out without labels, so its slots must have been known.
  rw [ofText, Text.split_of_not_mem hline] at h
  obtain ⟨l, hl, hbytes⟩ := bind_eq_ok.mp h
  obtain ⟨l', hadd, hl⟩ := bind_eq_ok.mp hl
  cases hl
  dsimp only at hadd
  rw [Layout.addLine_of_label_eq_none hnone] at hadd
  refine ⟨hnone, ?_⟩
  by_cases hbody : (Line.ofText text).body = []
  · rw [if_pos hbody] at hadd
    cases hadd
    cases hbytes
    exact .inl ⟨hbody, rfl⟩
  · rw [if_neg hbody] at hadd
    cases hparse : Statement.parse (Line.ofText text).body with
    | error cause =>
        rw [hparse] at hadd
        cases hadd
    | ok s =>
        rw [hparse] at hadd
        cases hadd
        obtain ⟨parts, hparts, hflat⟩ := map_eq_ok.mp hbytes
        obtain ⟨part, hpart, hrest⟩ := bind_eq_ok.mp hparts
        cases hrest
        obtain rfl : part = bytes := by simpa using hflat
        exact .inr ⟨hbody, s, rfl, Statement.standsFor_of_bytes_placed hpart⟩

end Assembly
end CoreWar
