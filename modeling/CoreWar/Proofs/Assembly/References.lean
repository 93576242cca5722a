import CoreWar.Proofs.Assembly.Grammar
import CoreWar.Proofs.Assembly.Layout
import CoreWar.Proofs.Machine.Faults

/-!
# Assembled instructions in the arena

An assembled program is put anywhere in the arena, also around its end.  Where
an instruction of the text lies, the machine then finds what the text says: the
operation, a location and a mode for every operand, and the words.  The word of
a label is the distance from the instruction to the line that defines it.  This
does not depend on where the program was put, and since the machine adds it to
the instruction pointer, the label is reached.
-/

namespace CoreWar
namespace Assembly

/-- A line that holds an instruction: something stands on it, and no data. -/
structure Line.IsInstruction (text : List Char) : Prop where
  body_ne_nil : (Line.ofText text).body ≠ []
  not_bytes : Statement.mnemonic (Line.ofText text).body ≠ "DB"
  not_words : Statement.mnemonic (Line.ofText text).body ≠ "DW"

/-- An operand of the instruction at distance `d` from where a program starts
refers to the place at distance `t`: its word holds the way there, a jump that is
taken leads there, and in brackets it is the memory there. -/
structure Refers (arena : Arena) (start d t : UInt16) (p : Position) : Prop where
  mode : (arena.decode (start + d)).mode p = .relative
  word : arena.word (Arena.immediateAddress (arena.decode (start + d)) (start + d) p) = t - d
  jump : ∀ (thread : Thread) (pid : UInt8), thread.ip = start + d → p = .destination →
    (arena.decode (start + d)).dst = .imd →
    (arena.decode (start + d)).opcode.isTaken thread.flags = true →
    (Machine.mk thread arena pid).step =
      ⟨⟨{ thread with ip := start + t }, arena, pid⟩, .ok (arena.decode (start + d))⟩
  memory : ∀ (thread : Thread) (pid : UInt8), thread.ip = start + d →
    (arena.decode (start + d)).location p = .pimd →
    (Machine.mk thread arena pid).storage (arena.decode (start + d)) p =
      .ok (.memory (start + t))

end Assembly

/-! ## Words at run time -/

namespace Machine

variable {m : Machine} {i : Instruction} {p : Position}

theorem storage_of_imd (h : i.location p = .imd) :
    m.storage i p = .ok (.immediate (Arena.immediateAddress i m.thread.ip p)) := by
  unfold storage
  dsimp only
  rw [h]

theorem storage_of_pimd (h : i.location p = .pimd) :
    m.storage i p = .ok (.memory ((i.mode p).address m.thread.ip
      (m.arena.word (Arena.immediateAddress i m.thread.ip p)))) := by
  unfold storage
  dsimp only
  rw [h]

/-- A jump to a word that is taken. -/
theorem step_of_isTaken (hdst : (m.arena.decode m.thread.ip).dst = .imd)
    (htaken : (m.arena.decode m.thread.ip).opcode.isTaken m.thread.flags = true) :
    m.step = ⟨m.jump (m.arena.decode m.thread.ip).dstMode
      (m.arena.word (Arena.immediateAddress (m.arena.decode m.thread.ip) m.thread.ip .destination)),
      .ok (m.arena.decode m.thread.ip)⟩ := by
  have hstorage := storage_of_imd (m := m) (p := .destination) hdst
  rw [step, execute, Opcode.form_of_isTaken htaken]
  dsimp only
  rw [hstorage]
  dsimp only
  rw [if_pos htaken]
  rfl

end Machine

namespace Assembly

open Checks

section Refers

variable {arena : Arena} {start d t : UInt16} {p : Position}

theorem add_distance (start d t : UInt16) : start + d + (t - d) = start + t := by
  rw [UInt16.add_assoc, UInt16.add_comm d, UInt16.sub_add_cancel]

/-- A relative word that holds a distance refers to what is there. -/
theorem refers_of_word (hmode : (arena.decode (start + d)).mode p = .relative)
    (hword : arena.word (Arena.immediateAddress (arena.decode (start + d)) (start + d) p) = t - d) :
    Refers arena start d t p := by
  refine ⟨hmode, hword, ?_, ?_⟩
  · rintro thread pid hip rfl hdst htaken
    have hrelative : (arena.decode (start + d)).dstMode = .relative := hmode
    have hstep := Machine.step_of_isTaken (m := ⟨thread, arena, pid⟩) (hip ▸ hdst) (hip ▸ htaken)
    rw [hstep, hip, hword, hrelative, Machine.jump]
    dsimp only
    rw [hip, AccessMode.address, add_distance]
  · intro thread pid hip hlocation
    rw [Machine.storage_of_pimd hlocation, hip, hmode, hword, AccessMode.address, add_distance]

end Refers

/-! ## The words of an instruction -/

namespace Statement

variable {arena : Arena} {a : UInt16} {op : Opcode} {os : List Operand}

theorem mem_positions (p : Position) : p ∈ [Position.destination, .source] := by
  cases p <;> decide

theorem immediates_instructionOf
    (hslots : ∀ p, (operandAt os p).slot.isSome = (operandAt os p).location.hasImmediate) :
    arena.immediates (instructionOf op os) a =
      ([Position.destination, .source].filter fun p => (operandAt os p).slot.isSome).map
        fun p => arena.word (Arena.immediateAddress (instructionOf op os) a p) := by
  rw [Arena.immediates]
  simp only [location_instructionOf, hslots]

theorem length_slotsOf
    (hslots : ∀ p, (operandAt os p).slot.isSome = (operandAt os p).location.hasImmediate) :
    (slotsOf os).length = (instructionOf op os).immediateCount := by
  change (slotsOf os).length = (operandAt os .destination).location.hasImmediate.toNat +
    (operandAt os .source).location.hasImmediate.toNat
  rw [← hslots .destination, ← hslots .source, slotsOf]
  cases hdst : (operandAt os .destination).slot <;> cases hsrc : (operandAt os .source).slot <;>
    simp [hdst, hsrc]

/-- The words behind a header are those of its operands. -/
theorem resolve_eq_ok {labels : Std.HashMap String UInt16} {d : Nat}
    (hwords : (slotsOf os).mapM (resolve labels d) =
      .ok (arena.immediates (instructionOf op os) a))
    (hslots : ∀ p, (operandAt os p).slot.isSome = (operandAt os p).location.hasImmediate)
    {p : Position} {slot : Slot} (h : (operandAt os p).slot = some slot) :
    resolve labels d slot =
      .ok (arena.word (Arena.immediateAddress (instructionOf op os) a p)) := by
  rw [immediates_instructionOf hslots] at hwords
  exact eq_ok_of_mapM_filterMap hwords (mem_positions p) h

/-- The bytes of a statement are the instruction that it spells, with its words. -/
theorem Spells.encode {text : List Char} {head : List UInt8} {ws : List UInt16}
    {labels : Std.HashMap String UInt16} {d : Nat} (h : Spells text op os)
    (hhead : (instructionOf op os).header = .ok head)
    (hws : (slotsOf os).mapM (resolve labels d) = .ok ws) :
    (instructionOf op os).encode ws = .ok (head ++ ws.flatMap Word.bytes) := by
  refine Instruction.encode_eq_ok_iff.mpr ⟨?_, head, hhead, rfl⟩
  rw [length_of_mapM_eq_ok hws, length_slotsOf h.isSome_slot]

end Statement

theorem exists_of_resolve_label {labels : Std.HashMap String UInt16} {d : Nat} {name : String}
    {w : UInt16} (h : resolve labels d (.label name) = .ok w) :
    ∃ target, labels[name]? = some target ∧ w = target - UInt16.ofNat d := by
  unfold resolve at h
  dsimp only at h
  split at h
  next target htarget =>
    cases h
    exact ⟨target, htarget, rfl⟩
  next => cases h

/-! ## Programs in the arena -/

/-- What the machine finds where an instruction of the text lies, at distance `d`
from where the program starts. -/
structure Found (lines : List (List Char)) (arena : Arena) (start : UInt16) (d : Nat)
    (op : Opcode) (os : List Operand) : Prop where
  opcode : (arena.decode (start + UInt16.ofNat d)).opcode = op
  location : ∀ p, (arena.decode (start + UInt16.ofNat d)).location p =
    (Statement.operandAt os p).location
  valid : ∀ p, (arena.decode (start + UInt16.ofNat d)).location p ≠ .invalid
  mode : ∀ p, (arena.decode (start + UInt16.ofNat d)).mode p = (Statement.operandAt os p).mode
  value : ∀ p w, (Statement.operandAt os p).slot = some (.value w) →
    arena.word (Arena.immediateAddress (arena.decode (start + UInt16.ofNat d))
      (start + UInt16.ofNat d) p) = w
  defined : ∀ p name, (Statement.operandAt os p).slot = some (.label name) →
    ∃ t, DefinedAt lines name t
  label : ∀ p name t, (Statement.operandAt os p).slot = some (.label name) →
    DefinedAt lines name t → Refers arena start (UInt16.ofNat d) (UInt16.ofNat t) p

/-- An instruction whose bytes are in the arena is found there. -/
theorem found_of_bytesAt {lines : List (List Char)} {arena : Arena} {start : UInt16} {d : Nat}
    {text : List Char} {op : Opcode} {os : List Operand} {head : List UInt8} {ws : List UInt16}
    {labels : Std.HashMap String UInt16} (hspells : Statement.Spells text op os)
    (hhead : (Statement.instructionOf op os).header = .ok head)
    (hws : (Statement.slotsOf os).mapM (resolve labels d) = .ok ws)
    (hlabels : ∀ name w, labels[name]? = some w ↔
      ∃ t, DefinedAt lines name t ∧ w = UInt16.ofNat t)
    (hbytes : arena.bytesAt (start + UInt16.ofNat d) (head ++ ws.flatMap Word.bytes).length =
      head ++ ws.flatMap Word.bytes) :
    (arena.decode (start + UInt16.ofNat d)).size.toNat = (head ++ ws.flatMap Word.bytes).length ∧
      Found lines arena start d op os := by
  have hslots := hspells.isSome_slot
  obtain ⟨hi, hsize, hwords⟩ := Arena.decode_of_encode (hspells.encode hhead hws) hbytes
  rw [← hwords] at hws
  refine ⟨by rw [hi, hsize], ?_⟩
  constructor
  case opcode =>
    rw [hi]
    rfl
  case location =>
    intro p
    rw [hi, Statement.location_instructionOf]
  case valid =>
    intro p
    rw [hi]
    exact Location.ne_invalid_of_mem_table (Instruction.location_mem_table_of_header hhead p)
  case mode =>
    intro p
    rw [hi, Statement.mode_instructionOf]
  case value =>
    intro p w hvalue
    rw [hi]
    exact (Except.ok.inj (Statement.resolve_eq_ok hws hslots hvalue)).symm
  case defined =>
    intro p name hlabel
    obtain ⟨target, htarget, -⟩ :=
      exists_of_resolve_label (Statement.resolve_eq_ok hws hslots hlabel)
    obtain ⟨t, ht, -⟩ := (hlabels name target).mp htarget
    exact ⟨t, ht⟩
  case label =>
    intro p name t hlabel ht
    obtain ⟨target, htarget, hdistance⟩ :=
      exists_of_resolve_label (Statement.resolve_eq_ok hws hslots hlabel)
    have hsame := (hlabels name _).mpr ⟨t, ht, rfl⟩
    rw [htarget] at hsame
    apply refers_of_word
    · rw [hi, Statement.mode_instructionOf, hspells.mode_of_label hlabel]
    · rw [hi, ← Option.some.inj hsame]
      exact hdistance

/-- Wherever an assembled program is put in the arena, each instruction is found
there as the text spells it, and its labels are where the text defines them. -/
theorem found_of_assemble {source : String} {program : List UInt8}
    (h : assemble source = .ok program) (hsize : program.length ≤ Arena.size)
    (m : Arena) (start : UInt16) (pid : UInt8) {d : Nat} {line : List Char}
    (hlies : LiesAt (Text.split '\n' source.toList) d line) (hline : Line.IsInstruction line) :
    ∃ (op : Opcode) (os : List Operand) (front bytes back : List UInt8),
      Statement.Spells (Line.ofText line).body op os ∧
        program = front ++ bytes ++ back ∧ front.length = d ∧ bytes.length = Line.size line ∧
        ((m.writeBytes start pid program).decode (start + UInt16.ofNat d)).size.toNat =
          bytes.length ∧
        Found (Text.split '\n' source.toList) (m.writeBytes start pid program) start d op os := by
  obtain ⟨labels, number, s, front, bytes, back, hparse, hbytes, hprogram, hfront, hlength,
    hlabels⟩ := exists_bytes_of_ofText h hlies hline.body_ne_nil
  obtain ⟨op, os, head, hspells, hhead, rfl⟩ :=
    Statement.exists_spells_of_parse hparse hline.not_bytes hline.not_words
  obtain ⟨ws, hws, rfl⟩ := Layout.exists_of_bytes_placed hbytes
  subst hprogram hfront
  refine ⟨op, os, front, _, back, hspells, rfl, rfl, hlength, ?_⟩
  have hmiddle := Arena.bytesAt_middle (Arena.bytesAt_writeBytes m start pid hsize)
  exact found_of_bytesAt hspells hhead hws hlabels hmiddle

/-- A loop of two instructions, one that uses a label before it is defined and one
that uses a label behind its definition. -/
theorem assemble_loop : assemble "loop: inc [self]\nself: jmp loop" =
    .ok [0x46, 0x0D, 0x00, 0x04, 0x52, 0x0C, 0xFF, 0xFC] := by
  let labels : Std.HashMap String UInt16 := (∅ : Std.HashMap String UInt16).insert "LOOP" 0
  have hlines : Text.split '\n' "loop: inc [self]\nself: jmp loop".toList =
      ["loop: inc [self]".toList, "self: jmp loop".toList] := by decide
  have hfirst : Layout.addLine {} 1 "loop: inc [self]".toList =
      .ok ⟨4, labels, [⟨1, 0, ⟨[0x46, 0x0D], [.label "SELF"]⟩⟩]⟩ := by
    have hdefine : Layout.define {} "LOOP" = .ok ⟨0, labels, []⟩ :=
      Layout.define_of_getElem?_eq_none (by simp)
    rw [Layout.addLine_eq]
    change (Layout.define {} "LOOP" >>= _) = _
    rw [hdefine]
    rfl
  have hsecond : Layout.addLine ⟨4, labels, [⟨1, 0, ⟨[0x46, 0x0D], [.label "SELF"]⟩⟩]⟩ 2
      "self: jmp loop".toList = .ok ⟨8, labels.insert "SELF" 4,
        [⟨2, 4, ⟨[0x52, 0x0C], [.label "LOOP"]⟩⟩, ⟨1, 0, ⟨[0x46, 0x0D], [.label "SELF"]⟩⟩]⟩ := by
    have hdefine : Layout.define ⟨4, labels, [⟨1, 0, ⟨[0x46, 0x0D], [.label "SELF"]⟩⟩]⟩ "SELF" =
        .ok ⟨4, labels.insert "SELF" 4, [⟨1, 0, ⟨[0x46, 0x0D], [.label "SELF"]⟩⟩]⟩ :=
      Layout.define_of_getElem?_eq_none (by simp [labels])
    rw [Layout.addLine_eq]
    change (Layout.define _ "SELF" >>= _) = _
    rw [hdefine]
    rfl
  have hself : resolve (labels.insert "SELF" 4) 0 (.label "SELF") = .ok 4 := by
    simp [resolve]
  have hloop : resolve (labels.insert "SELF" 4) 4 (.label "LOOP") = .ok 0xFFFC := by
    have hget : (labels.insert "SELF" 4)["LOOP"]? = some 0 := by
      rw [Std.HashMap.getElem?_insert, if_neg (by decide), Std.HashMap.getElem?_insert_self]
    rw [resolve]
    rw [hget]
    rfl
  rw [assemble, ofText, hlines, List.zipIdx_cons, Layout.addLines, List.foldlM_cons]
  change ((Layout.addLine {} 1 _).mapError _ >>= _) >>= _ = _
  rw [hfirst]
  change ((Layout.addLine _ 2 _).mapError _ >>= _) >>= _ = _
  rw [hsecond]
  change (List.mapM (Placed.bytes (labels.insert "SELF" 4)) [_, _]).map List.flatten = _
  rw [List.mapM_cons, List.mapM_cons]
  unfold Placed.bytes
  dsimp only
  rw [List.mapM_cons, hself, List.mapM_cons, hloop]
  rfl

/-- The same loop where it runs around the end of the arena. -/
theorem found_of_assemble_loop :
    let arena := Arena.empty.writeBytes 0xFFFE 1 [0x46, 0x0D, 0x00, 0x04, 0x52, 0x0C, 0xFF, 0xFC]
    (Machine.mk { ip := 0xFFFE } arena 1).storage (arena.decode 0xFFFE) .destination =
        .ok (.memory 2) ∧
      (Machine.mk { ip := 2 } arena 1).step =
        ⟨⟨{ ip := 0xFFFE }, arena, 1⟩, .ok (arena.decode 2)⟩ := by
  intro arena
  have hlines : Text.split '\n' "loop: inc [self]\nself: jmp loop".toList =
      ["loop: inc [self]".toList, "self: jmp loop".toList] := by decide
  have hinc : LiesAt (Text.split '\n' "loop: inc [self]\nself: jmp loop".toList) 0
      "loop: inc [self]".toList := by
    rw [hlines]
    exact .here
  have hjmp : LiesAt (Text.split '\n' "loop: inc [self]\nself: jmp loop".toList) 4
      "self: jmp loop".toList := by
    rw [hlines]
    exact LiesAt.later .here
  have hstart : (0xFFFE : UInt16) + UInt16.ofNat 0 = 0xFFFE := by decide
  have hnext : (0xFFFE : UInt16) + UInt16.ofNat 4 = 2 := by decide
  constructor
  · obtain ⟨op, os, -, -, -, hspells, -, -, -, -, hfound⟩ :=
      found_of_assemble assemble_loop (by decide) Arena.empty 0xFFFE 1 hinc
        ⟨by decide, by decide, by decide⟩
    obtain ⟨-, hos⟩ := hspells.reads
    obtain rfl : [⟨.pimd, .relative, some (.label "SELF")⟩] = os := Except.ok.inj hos
    have hself : DefinedAt (Text.split '\n' "loop: inc [self]\nself: jmp loop".toList) "SELF" 4 :=
      ⟨_, hjmp, _, rfl, rfl⟩
    have hmemory := (hfound.label .destination "SELF" 4 rfl hself).memory { ip := 0xFFFE } 1
      hstart.symm (hfound.location .destination)
    rwa [hstart, hnext] at hmemory
  · obtain ⟨op, os, -, -, -, hspells, -, -, -, -, hfound⟩ :=
      found_of_assemble assemble_loop (by decide) Arena.empty 0xFFFE 1 hjmp
        ⟨by decide, by decide, by decide⟩
    obtain ⟨hop, hos⟩ := hspells.reads
    obtain rfl : .jmp = op := Option.some.inj hop
    obtain rfl : [⟨.imd, .relative, some (.label "LOOP")⟩] = os := Except.ok.inj hos
    have hloop : DefinedAt (Text.split '\n' "loop: inc [self]\nself: jmp loop".toList) "LOOP" 0 :=
      ⟨_, hinc, _, rfl, rfl⟩
    have htaken : (arena.decode (0xFFFE + UInt16.ofNat 4)).opcode.isTaken {} = true := by
      rw [hfound.opcode]
      rfl
    have hjump := (hfound.label .destination "LOOP" 0 rfl hloop).jump { ip := 2 } 1
      hnext.symm rfl (hfound.location .destination) htaken
    rwa [hstart, hnext] at hjump

end Assembly
end CoreWar
