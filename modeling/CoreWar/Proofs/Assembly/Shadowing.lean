import CoreWar.Proofs.Assembly.References

/-!
# Labels that are spelled like registers or numbers

Any word can be defined as a label, also the name of a register and a number.  What an operand
spells is looked up among the registers first, then it is read as a number if it begins like one,
and only what is neither is a label.  So an operand with the name of a label refers to this label
unless the name is taken: by a register where the operand stands alone, by a pointer where it
stands in brackets, or by the numbers (`encoded_of_defined`).  Where the name is taken the operand
is encoded as if the label did not exist.
-/

namespace CoreWar

/-- The words of an instruction, each with the operand that it belongs to. -/
def Instruction.words (i : Instruction) (ws : List UInt16) : List (Position × UInt16) :=
  ([Position.destination, .source].filter fun p => (i.location p).hasImmediate).zip ws

namespace Assembly

open Checks

/-! ## What an operand is read as -/

namespace Operand

variable {text : List Char} {o : Operand} {l : Location}

/-- An operand whose name is taken cannot refer to a label. -/
def IsTaken (text : List Char) : Prop :=
  (named? text).isSome = true ∨ looksNumeric (bare text) = true

instance : DecidablePred IsTaken := fun _ => inferInstanceAs (Decidable (_ ∨ _))

theorem eq_of_named? (h : parse text = .ok o) (hl : named? text = some l) :
    o = ⟨l, mark text, none⟩ := by
  rw [parse_eq, hl] at h
  exact (Except.ok.inj h).symm

theorem exists_written_of_named?_eq_none (h : parse text = .ok o) (hnone : named? text = none) :
    ∃ s, Slot.Written (bare text) s ∧
      o = ⟨wordLocation text, modeOf (mark text) (some s), some s⟩ := by
  rw [parse_eq, hnone] at h
  exact immediate_eq_ok_iff.mp h

/-- An operand that begins like a number holds one. -/
theorem exists_number (h : parse text = .ok o) (hnumber : looksNumeric (bare text) = true) :
    ∃ x, Numeral.parse (bare text) = .ok x ∧
      o = ⟨wordLocation text, mark text, some (.value (UInt16.ofInt x))⟩ := by
  obtain ⟨s, hs, rfl⟩ := exists_written_of_named?_eq_none h (named?_of_looksNumeric hnumber)
  rcases hs with ⟨-, hx, -, -⟩ | ⟨-, hfirst, -⟩
  · exact ⟨_, hx, rfl⟩
  · rw [hnumber] at hfirst
    cases hfirst

/-- An operand whose name is not taken refers to the label of that name. -/
theorem eq_reference (h : parse text = .ok o) (hfree : ¬IsTaken text) :
    o = ⟨wordLocation text, .relative, some (.label (String.ofList (bare text)))⟩ := by
  rw [IsTaken, not_or, Option.not_isSome_iff_eq_none, Bool.not_eq_true] at hfree
  obtain ⟨hnone, hnumber⟩ := hfree
  obtain ⟨s, hs, rfl⟩ := exists_written_of_named?_eq_none h hnone
  rcases hs with ⟨hfirst, -, -, -⟩ | ⟨-, -, -⟩
  · rw [hnumber] at hfirst
    cases hfirst
  · rfl

end Operand

/-! ## How an operand is encoded -/

namespace Statement

variable {text t : List Char} {op : Opcode} {os : List Operand} {p : Position}

/-- The text in a place of an instruction. -/
def argumentAt (text : List Char) : Position → Option (List Char)
  | .destination => (arguments text)[0]?
  | .source => (arguments text)[1]?

theorem Spells.parse_argumentAt (h : Spells text op os) (ht : argumentAt text p = some t) :
    Operand.parse t = .ok (operandAt os p) := by
  have hget : ∀ k : Nat, (arguments text)[k]? = some t →
      Operand.parse t = .ok (os.getD k Operand.unused) := by
    intro k hk
    obtain ⟨hlt, rfl⟩ := List.getElem?_eq_some_iff.mp hk
    have hlt' : k < os.length := by rwa [← h.operands.length_eq]
    have hdenotes := h.operands.get hlt hlt'
    rw [List.getD_eq_getElem?_getD, List.getElem?_eq_getElem hlt']
    exact Operand.parse_eq_ok_iff.mpr hdenotes
  cases p with
  | destination => exact hget 0 ht
  | source => exact hget 1 ht

/-- The words behind a header are the resolved slots, operand by operand. -/
theorem exists_word {labels : Std.HashMap String UInt16} {d : Nat} {ws : List UInt16}
    (hslots : ∀ p, (operandAt os p).slot.isSome = (operandAt os p).location.hasImmediate)
    (hws : (slotsOf os).mapM (resolve labels d) = .ok ws) {slot : Slot}
    (h : (operandAt os p).slot = some slot) :
    ∃ w, resolve labels d slot = .ok w ∧ (p, w) ∈ (instructionOf op os).words ws := by
  obtain ⟨w, hw, hmem⟩ := exists_mem_zip_of_mapM_filterMap hws (mem_positions p) h
  refine ⟨w, hw, ?_⟩
  rw [Instruction.words]
  simp only [location_instructionOf, ← hslots]
  exact hmem

end Statement

section Encoded

variable {source : String} {program : List UInt8} {d target : Nat} {line t : List Char}
  {p : Position}

/-- How an operand with the name of a label is encoded.  If the name is free, the operand is
relative and its word is the way from the instruction to the label.  If the name is taken, the
operand is the register, the pointer or the number that has the name. -/
theorem encoded_of_defined (h : assemble source = .ok program)
    (hlies : LiesAt (Text.split '\n' source.toList) d line) (hline : Line.IsInstruction line)
    (ht : Statement.argumentAt (Line.ofText line).body p = some t)
    (hdefined : DefinedAt (Text.split '\n' source.toList) (String.ofList (Operand.bare t))
      target) :
    ∃ (i : Instruction) (ws : List UInt16) (front bytes back : List UInt8),
      program = front ++ bytes ++ back ∧ front.length = d ∧ i.encode ws = .ok bytes ∧
        (¬Operand.IsTaken t → i.location p = Operand.wordLocation t ∧ i.mode p = .relative ∧
          (p, UInt16.ofNat target - UInt16.ofNat d) ∈ i.words ws) ∧
        (∀ l, Operand.named? t = some l → i.location p = l ∧ i.mode p = Operand.mark t) ∧
        (Operand.looksNumeric (Operand.bare t) = true →
          ∃ x, Numeral.parse (Operand.bare t) = .ok x ∧ i.location p = Operand.wordLocation t ∧
            i.mode p = Operand.mark t ∧ (p, UInt16.ofInt x) ∈ i.words ws) := by
  obtain ⟨labels, number, s, front, bytes, back, hparse, hbytes, hprogram, hfront, -, hlabels⟩ :=
    exists_bytes_of_ofText h hlies hline.body_ne_nil
  obtain ⟨op, os, head, hspells, hhead, rfl⟩ :=
    Statement.exists_spells_of_parse hparse hline.not_bytes hline.not_words
  obtain ⟨ws, hws, rfl⟩ := Layout.exists_of_bytes_placed hbytes
  have hoperand := hspells.parse_argumentAt ht
  refine ⟨Statement.instructionOf op os, ws, front, _, back, hprogram, hfront,
    hspells.encode hhead hws, ?_, ?_, ?_⟩
  · intro hfree
    have hreference := Operand.eq_reference hoperand hfree
    obtain ⟨w, hw, hmem⟩ := Statement.exists_word (p := p) hspells.isSome_slot hws
      (congrArg Operand.slot hreference)
    -- The label has one address, so the word is the way to the line that is known to define it.
    obtain ⟨address, haddress, rfl⟩ := exists_of_resolve_label hw
    have hsame := (hlabels _ _).mpr ⟨target, hdefined, rfl⟩
    rw [haddress] at hsame
    obtain rfl := Option.some.inj hsame
    rw [Statement.location_instructionOf, Statement.mode_instructionOf, hreference]
    exact ⟨rfl, rfl, hmem⟩
  · intro l hl
    rw [Statement.location_instructionOf, Statement.mode_instructionOf,
      Operand.eq_of_named? hoperand hl]
    exact ⟨rfl, rfl⟩
  · intro hnumber
    obtain ⟨x, hx, heq⟩ := Operand.exists_number hoperand hnumber
    obtain ⟨w, hw, hmem⟩ := Statement.exists_word (p := p) hspells.isSome_slot hws
      (congrArg Operand.slot heq)
    obtain rfl := Except.ok.inj hw
    rw [Statement.location_instructionOf, Statement.mode_instructionOf, heq]
    exact ⟨x, hx, rfl, rfl, hmem⟩

end Encoded

/-- The reference of a loop to what follows it, in brackets. -/
theorem encoded_of_defined_loop :
    ∃ (i : Instruction) (ws : List UInt16) (bytes back : List UInt8),
      [0x46, 0x0D, 0x00, 0x04, 0x52, 0x0C, 0xFF, 0xFC] = bytes ++ back ∧
        i.encode ws = .ok bytes ∧ i.dst = .pimd ∧ i.dstMode = .relative ∧
        (Position.destination, 4) ∈ i.words ws := by
  have hlines : Text.split '\n' "loop: inc [self]\nself: jmp loop".toList =
      ["loop: inc [self]".toList, "self: jmp loop".toList] := by decide
  have hinc : LiesAt (Text.split '\n' "loop: inc [self]\nself: jmp loop".toList) 0
      "loop: inc [self]".toList := by
    rw [hlines]
    exact .here
  have hself : DefinedAt (Text.split '\n' "loop: inc [self]\nself: jmp loop".toList) "SELF"
      4 := by
    rw [hlines]
    exact ⟨_, LiesAt.later .here, _, rfl, rfl⟩
  obtain ⟨i, ws, front, bytes, back, hprogram, hfront, hencode, hfree, -, -⟩ :=
    encoded_of_defined (p := .destination) (t := "[self]".toList) assemble_loop hinc
      ⟨by decide, by decide, by decide⟩ rfl hself
  obtain rfl := List.eq_nil_of_length_eq_zero hfront
  obtain ⟨hlocation, hmode, hword⟩ := hfree (by decide)
  exact ⟨i, ws, bytes, back, hprogram, hencode, hlocation, hmode, hword⟩

/-- A label can have the name of a register: then the operand is the register. -/
theorem register_shadows_label :
    assemble "ax: inc ax" = .ok [0x44, 0x06] ∧
      LiesAt (Text.split '\n' "ax: inc ax".toList) 0 "ax: inc ax".toList ∧
      Statement.argumentAt (Line.ofText "ax: inc ax".toList).body .destination =
        some "ax".toList ∧
      DefinedAt (Text.split '\n' "ax: inc ax".toList) (String.ofList (Operand.bare "ax".toList))
        0 ∧
      ∀ (i : Instruction) (ws : List UInt16), i.encode ws = .ok [0x44, 0x06] → i.dst = .ax := by
  have hline : Text.split '\n' "ax: inc ax".toList = ["ax: inc ax".toList] := by decide
  refine ⟨?_, by rw [hline]; exact .here, rfl, by rw [hline]; exact ⟨_, .here, _, rfl, rfl⟩, ?_⟩
  · have hdefine : Layout.define {} "AX" =
        .ok ⟨0, (∅ : Std.HashMap String UInt16).insert "AX" 0, []⟩ :=
      Layout.define_of_getElem?_eq_none (by simp)
    have hadd : Layout.addLine {} 1 "ax: inc ax".toList =
        .ok ⟨2, (∅ : Std.HashMap String UInt16).insert "AX" 0, [⟨1, 0, ⟨[0x44, 0x06], []⟩⟩]⟩ := by
      rw [Layout.addLine_eq]
      change (Layout.define {} "AX" >>= _) = _
      rw [hdefine]
      rfl
    rw [assemble, ofText, hline, List.zipIdx_cons, Layout.addLines, List.foldlM_cons]
    change ((Layout.addLine {} 1 _).mapError _ >>= _) >>= _ = _
    rw [hadd]
    rfl
  · intro i ws hencode
    have hfits : [(0x44 : UInt8), 0x06].length ≤ Arena.size := by decide
    have hbytes := Arena.bytesAt_writeBytes Arena.empty 0 1 hfits
    obtain ⟨hi, -, -⟩ := Arena.decode_of_encode hencode hbytes
    rw [← hi]
    rfl

end Assembly
end CoreWar
