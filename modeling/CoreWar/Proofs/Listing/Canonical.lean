import CoreWar.Proofs.Listing.Operands
import CoreWar.Proofs.Listing.RoundTrip

/-!
# Which instructions are shown as instructions

A line of a listing shows an instruction as text if the text assembles to its bytes, and as
data otherwise.  The assembler writes the places that an operation does not use as `al`, it
knows thirty-two operation codes, and it refuses locations that do not exist.  Headers of that
form are canonical, and they are exactly the ones that are shown as text.

In one direction the assembler writes canonical headers only, so whatever text a line shows,
the bytes it assembles to begin with one (`isCanonicalHeader_of_ofText`).  In the other, the
operands of a canonical instruction are read as they were printed, whatever its words are
(`ofText_of_isCanonical`).
-/

namespace CoreWar

open Assembly

/-! ## Canonical instructions -/

/-- The places of operands that an operation uses. -/
def Opcode.positions (op : Opcode) : List Position :=
  [Position.destination, .source].take op.arity

/-- An instruction that the assembler can write: its operands exist in their places, and the
other places are `al`. -/
structure Instruction.IsCanonical (i : Instruction) : Prop where
  mem_table : ∀ p ∈ i.opcode.positions, i.location p ∈ p.table
  unused : ∀ p ∉ i.opcode.positions, i.location p = .al ∧ i.mode p = .direct

/-- A header that the assembler can write: its operation has a code, and the instruction is
canonical. -/
structure IsCanonicalHeader (b₀ b₁ : UInt8) : Prop where
  opcode_lt : (b₀ / 4).toNat < 32
  isCanonical : (Instruction.ofHeader b₀ b₁).IsCanonical

namespace Opcode

theorem positions_cases (op : Opcode) :
    op.positions = [] ∨ op.positions = [.destination] ∨ op.positions = [.destination, .source] := by
  cases op <;> decide

theorem length_positions (op : Opcode) : op.positions.length = op.arity := by
  have hle := op.arity_le_two
  rw [positions, List.length_take]
  exact Nat.min_eq_left hle

theorem upper_name (op : Opcode) : String.ofList (Text.upper op.name.toList) = op.name := by
  cases op <;> decide

theorem toNat_code_lt (op : Opcode) : op.code.toNat < 32 := by
  cases op <;> decide

end Opcode

namespace Instruction

variable {i : Instruction} {ws : List UInt16} {bytes : List UInt8}

theorem IsCanonical.location_mem_table (h : i.IsCanonical) (p : Position) :
    i.location p ∈ p.table := by
  by_cases hp : p ∈ i.opcode.positions
  · exact h.mem_table p hp
  · rw [(h.unused p hp).1]
    cases p <;> decide

theorem exists_header (h : ∀ p, i.location p ∈ p.table) : ∃ bytes, i.header = .ok bytes := by
  have hnibble : ∀ p, ∃ n, (i.location p).nibble? p = some n := fun p =>
    Option.ne_none_iff_exists'.mp fun hnone => Location.nibble?_eq_none_iff.mp hnone (h p)
  obtain ⟨n₁, hdst⟩ := hnibble .destination
  obtain ⟨n₂, hsrc⟩ := hnibble .source
  exact ⟨_, header_eq_ok_iff.mpr ⟨n₁, n₂, hdst, hsrc, rfl⟩⟩

theorem length_of_header (h : i.header = .ok bytes) : bytes.length = 2 := by
  obtain ⟨n₁, n₂, -, -, rfl⟩ := header_eq_ok_iff.mp h
  rfl

theorem opcode_lt_of_header {b₀ b₁ : UInt8} (h : i.header = .ok [b₀, b₁]) :
    (b₀ / 4).toNat < 32 := by
  obtain ⟨n₁, n₂, -, -, hbytes⟩ := header_eq_ok_iff.mp h
  obtain ⟨rfl, -⟩ := List.cons_eq_cons.mp hbytes
  have hcode := i.opcode.toNat_code_lt
  rw [(first_fields (by omega) i.dstMode.toNat_bit_lt i.srcMode.toNat_bit_lt).1]
  exact hcode

end Instruction

namespace Listing

variable {i : Instruction} {ws : List UInt16} {bytes : List UInt8} {b₀ b₁ : UInt8}

/-! ## The text of an instruction -/

/-- The word that is printed for an operand. -/
def wordAt (i : Instruction) (ws : List UInt16) : Position → UInt16
  | .destination => ws.headD 0
  | .source => (if i.dst.hasImmediate then ws.tail else ws).headD 0

/-- The texts of the operands of an instruction. -/
def operandTexts (i : Instruction) (ws : List UInt16) : List (List Char) :=
  i.opcode.positions.map fun p => operandText (i.location p) (i.mode p) (wordAt i ws p)

theorem instructionText_eq (i : Instruction) (ws : List UInt16) :
    instructionText i ws =
      if operandTexts i ws = [] then
        i.opcode.name.toList
      else
        i.opcode.name.toList ++ ' ' :: Text.join [',', ' '] (operandTexts i ws) := by
  have htexts : operandTexts i ws
      = [operandText i.dst i.dstMode (wordAt i ws .destination),
          operandText i.src i.srcMode (wordAt i ws .source)].take i.opcode.arity := by
    rw [operandTexts, Opcode.positions, List.map_take]
    rfl
  simp only [instructionText, ← List.append_cons, List.isEmpty_iff, htexts]
  rfl

theorem isSolid_of_mem_operandTexts {p : List Char} (hp : p ∈ operandTexts i ws) :
    p ≠ [] ∧ IsSolid p := by
  obtain ⟨q, -, rfl⟩ := List.mem_map.mp hp
  exact ⟨operandText_ne_nil _ _ _, isSolid_operandText _ _ _⟩

theorem isSolid_name (op : Opcode) : op.name.toList ≠ [] ∧ IsSolid op.name.toList := by
  cases op <;> decide

theorem trim_instructionText (i : Instruction) (ws : List UInt16) :
    Text.trim (instructionText i ws) = instructionText i ws := by
  obtain ⟨hne, hname⟩ := isSolid_name i.opcode
  rw [instructionText_eq]
  split
  · exact hname.trim_eq
  next htexts => exact trim_word_join hne hname htexts fun _ => isSolid_of_mem_operandTexts

theorem instructionText_ne_nil (i : Instruction) (ws : List UInt16) :
    instructionText i ws ≠ [] := by
  obtain ⟨hne, -⟩ := isSolid_name i.opcode
  rw [instructionText_eq]
  split
  · exact hne
  · exact List.append_ne_nil_of_left_ne_nil hne _

/-! ## Its statement -/

/-- The text of an instruction gives its operation and the texts of its operands back. -/
theorem mnemonic_instructionText (i : Instruction) (ws : List UInt16) :
    Statement.mnemonic (instructionText i ws) = i.opcode.name ∧
      Statement.arguments (instructionText i ws) = operandTexts i ws := by
  have hname : ∀ c ∈ i.opcode.name.toList, (!Text.isBlank c) = true := by
    intro c hc
    rw [((isSolid_name i.opcode).2 c hc).1]
    rfl
  rw [instructionText_eq, Statement.mnemonic, Statement.arguments]
  split
  next htexts =>
    have hnothing : ∀ c ∈ ([] : List Char).head?, (!Text.isBlank c) = false := nofun
    obtain ⟨htake, hdrop⟩ := Text.takeWhile_dropWhile_append hname hnothing
    rw [List.append_nil] at htake hdrop
    rw [htake, hdrop, htexts]
    exact ⟨i.opcode.upper_name, rfl⟩
  next htexts =>
    have hpieces (p : List Char) (hp : p ∈ operandTexts i ws) := isSolid_of_mem_operandTexts hp
    have hblank : ∀ c ∈ (' ' :: Text.join [',', ' '] (operandTexts i ws)).head?,
        (!Text.isBlank c) = false := by
      rintro _ ⟨⟩
      decide
    obtain ⟨htake, hdrop⟩ := Text.takeWhile_dropWhile_append hname hblank
    rw [htake, hdrop, Text.trim_cons_of_isBlank (by decide), trim_join_of_isSolid hpieces,
      operands_join htexts hpieces]
    exact ⟨i.opcode.upper_name, rfl⟩

/-- The text of an instruction assembles to the bytes of the statement that it spells. -/
theorem ofText_instructionText_iff :
    Assembly.ofText (instructionText i ws) = .ok bytes ↔
      ∃ s, Statement.instruction i.opcode (operandTexts i ws) = .ok s ∧ s.StandsFor bytes := by
  obtain ⟨hmnemonic, harguments⟩ := mnemonic_instructionText i ws
  have hplain := isPlain_instructionText i ws
  have hbody : Line.ofText (instructionText i ws) = ⟨none, instructionText i ws⟩ := by
    rw [hplain.ofText_eq, trim_instructionText]
  rw [← harguments, ← Statement.parse_of_mnemonic hmnemonic]
  constructor
  · intro h
    obtain ⟨-, ⟨hnil, -⟩ | ⟨-, s, hs, hstands⟩⟩ := standsFor_of_ofText
      (fun hc => (hplain _ hc).2.2 rfl) (fun hc => (hplain _ hc).2.1 rfl) h
    · rw [hbody] at hnil
      exact absurd hnil (instructionText_ne_nil i ws)
    · rw [hbody] at hs
      exact ⟨s, hs, hstands⟩
  · rintro ⟨s, hs, hstands⟩
    have hline : (Line.ofText (instructionText i ws)).StandsFor bytes := by
      rw [hbody]
      exact ⟨rfl, .inr ⟨instructionText_ne_nil i ws, s, hs, hstands⟩⟩
    have htext : Assembly.ofText (Text.join ['\n'] ([instructionText i ws].map id))
        = .ok ([instructionText i ws].flatMap fun _ => bytes) :=
      ofText_eq_ok_of_standsFor (by simpa using fun hc => (hplain _ hc).2.2 rfl)
        (by simpa using hline)
    simpa [Text.join] using htext

/-! ## Canonical instructions assemble -/

/-- What the operand in a place of an instruction is read as. -/
def printedAt (i : Instruction) (ws : List UInt16) (p : Position) : Operand :=
  printed (i.location p) (i.mode p) (wordAt i ws p)

theorem mapM_parse_operandTexts (h : i.IsCanonical) (ws : List UInt16) :
    (operandTexts i ws).mapM Operand.parse = .ok (i.opcode.positions.map (printedAt i ws)) :=
  Checks.mapM_map_eq_ok_map fun p hp =>
    parse_operandText (Location.ne_invalid_of_mem_table (h.mem_table p hp)) _ _

/-- An unused place is read as what would have been printed for it. -/
theorem operandAt_printedAt (h : i.IsCanonical) (ws : List UInt16) (p : Position) :
    Statement.operandAt (i.opcode.positions.map (printedAt i ws)) p = printedAt i ws p := by
  have hunused : ∀ p ∉ i.opcode.positions, printedAt i ws p = Operand.unused := by
    intro p hp
    obtain ⟨hlocation, hmode⟩ := h.unused p hp
    rw [printedAt, hlocation, hmode]
    rfl
  obtain hpositions | hpositions | hpositions := i.opcode.positions_cases
  · rw [hunused p (by simp [hpositions]), hpositions]
    cases p <;> rfl
  · rw [hpositions]
    cases p with
    | destination => rfl
    | source => exact (hunused .source (by simp [hpositions])).symm
  · rw [hpositions]
    cases p <;> rfl

/-- The words are printed in the order in which they stand behind the header. -/
theorem slots_printedAt (hws : ws.length = i.immediateCount) :
    [Position.destination, .source].filterMap (fun p => (printedAt i ws p).slot)
      = ws.map Slot.value := by
  have hslot (p : Position) : (printedAt i ws p).slot
      = if (i.location p).hasImmediate then some (.value (wordAt i ws p)) else none := rfl
  simp only [List.filterMap_cons, hslot, List.filterMap_nil]
  unfold Instruction.immediateCount at hws
  unfold wordAt
  cases hdst : i.dst.hasImmediate <;> cases hsrc : i.src.hasImmediate <;>
    rw [hdst, hsrc] at hws <;> simp only [Instruction.location, hdst, hsrc]
  · rw [List.length_eq_zero_iff.mp hws]
    rfl
  · obtain ⟨w, rfl⟩ := List.length_eq_one_iff.mp hws
    rfl
  · obtain ⟨w, rfl⟩ := List.length_eq_one_iff.mp hws
    rfl
  · obtain ⟨w, v, rfl⟩ := List.length_eq_two.mp hws
    rfl

theorem instruction_operandTexts {header : List UInt8} (h : i.IsCanonical)
    (hws : ws.length = i.immediateCount) (hheader : i.header = .ok header) :
    Statement.instruction i.opcode (operandTexts i ws) = .ok ⟨header, ws.map Slot.value⟩ := by
  have hoperand := operandAt_printedAt h ws
  have harity : (operandTexts i ws).length = i.opcode.arity := by
    rw [operandTexts, List.length_map, i.opcode.length_positions]
  have hinstruction :
      Statement.instructionOf i.opcode (i.opcode.positions.map (printedAt i ws)) = i := by
    rw [Statement.instructionOf, hoperand, hoperand]
    rfl
  have hslots : Statement.slotsOf (i.opcode.positions.map (printedAt i ws))
      = ws.map Slot.value := by
    simp only [Statement.slotsOf, hoperand]
    exact slots_printedAt hws
  rw [← hslots]
  exact Statement.instruction_eq_ok harity (mapM_parse_operandTexts h ws)
    (hinstruction.symm ▸ hheader)

/-- A canonical instruction assembles to its encoding, whatever its words are. -/
theorem ofText_of_isCanonical (h : i.IsCanonical) (hws : ws.length = i.immediateCount) :
    ∃ bytes, i.encode ws = .ok bytes ∧ Assembly.ofText (instructionText i ws) = .ok bytes := by
  obtain ⟨header, hheader⟩ := Instruction.exists_header h.location_mem_table
  refine ⟨header ++ ws.flatMap Word.bytes,
    Instruction.encode_eq_ok_iff.mpr ⟨hws, header, hheader, rfl⟩, ?_⟩
  exact ofText_instructionText_iff.mpr
    ⟨_, instruction_operandTexts h hws hheader, ws, rfl, rfl⟩

/-! ## Only canonical instructions do -/

theorem operandAt_of_notMem_positions {op : Opcode} {os : List Operand} {p : Position}
    (harity : os.length = op.arity) (hp : p ∉ op.positions) :
    Statement.operandAt os p = Operand.unused := by
  rw [← op.length_positions] at harity
  obtain hpositions | hpositions | hpositions := op.positions_cases
  · rw [hpositions] at harity
    rw [List.length_eq_zero_iff.mp harity]
    cases p <;> rfl
  · rw [hpositions] at harity hp
    obtain ⟨o, rfl⟩ := List.length_eq_one_iff.mp harity
    cases p with
    | destination => exact absurd List.mem_cons_self hp
    | source => rfl
  · rw [hpositions] at hp
    exact absurd (by cases p <;> decide) hp

/-- A statement is made of an instruction that the assembler can write. -/
theorem exists_isCanonical_of_instruction {op : Opcode} {texts : List (List Char)}
    {s : Statement} (h : Statement.instruction op texts = .ok s) :
    ∃ i : Instruction, i.IsCanonical ∧ i.header = .ok s.head := by
  obtain ⟨os, head, harity, hos, hhead, rfl⟩ := Statement.exists_of_instruction h
  refine ⟨Statement.instructionOf op os, ⟨fun p _ =>
    Instruction.location_mem_table_of_header hhead p, fun p hp => ?_⟩, hhead⟩
  have hlength : os.length = op.arity := (Checks.length_of_mapM_eq_ok hos).trans harity
  rw [Statement.location_instructionOf, Statement.mode_instructionOf,
    operandAt_of_notMem_positions hlength hp]
  exact ⟨rfl, rfl⟩

/-- What the text of an instruction assembles to begins with a canonical header. -/
theorem isCanonicalHeader_of_ofText
    (h : Assembly.ofText (instructionText i ws) = .ok (b₀ :: b₁ :: bytes)) :
    IsCanonicalHeader b₀ b₁ := by
  obtain ⟨s, hs, vs, -, hbytes⟩ := ofText_instructionText_iff.mp h
  obtain ⟨j, hj, hheader⟩ := exists_isCanonical_of_instruction hs
  obtain ⟨c₀, c₁, hhead⟩ := List.length_eq_two.mp (Instruction.length_of_header hheader)
  rw [hhead] at hheader hbytes
  obtain ⟨h₀, hrest⟩ := List.cons_eq_cons.mp hbytes
  obtain ⟨h₁, -⟩ := List.cons_eq_cons.mp hrest
  rw [← h₀, ← h₁] at hheader
  refine ⟨Instruction.opcode_lt_of_header hheader, ?_⟩
  rw [Instruction.ofHeader_of_header hheader]
  exact hj

/-! ## Entries of instructions -/

theorem spells_instructionText_iff
    (hws : ws.length = (Instruction.ofHeader b₀ b₁).immediateCount) :
    spells (instructionText (Instruction.ofHeader b₀ b₁) ws) (instructionBytes b₀ b₁ ws) = true ↔
      IsCanonicalHeader b₀ b₁ := by
  rw [spells_iff]
  constructor
  · exact isCanonicalHeader_of_ofText
  · intro h
    have hlocation (p : Position) : (Instruction.ofHeader b₀ b₁).location p ≠ .invalid :=
      Location.ne_invalid_of_mem_table (h.isCanonical.location_mem_table p)
    have hheader := Instruction.header_ofHeader h.opcode_lt (hlocation .destination)
      (hlocation .source)
    obtain ⟨bytes, hencode, htext⟩ := ofText_of_isCanonical h.isCanonical hws
    obtain ⟨-, header, hheader', rfl⟩ := Instruction.encode_eq_ok_iff.mp hencode
    obtain rfl : [b₀, b₁] = header := Except.ok.inj (hheader.symm.trans hheader')
    exact htext

/-- The text of an instruction cannot be taken for data. -/
theorem instructionText_ne_dataText (i : Instruction) (ws : List UInt16) (bytes : List UInt8) :
    instructionText i ws ≠ dataText bytes := by
  intro h
  have hdata : Statement.mnemonic (dataText bytes) = "DB" := by
    rw [dataText_eq]
    rfl
  rw [← h, (mnemonic_instructionText i ws).1] at hdata
  exact i.opcode.name_ne_data.1 hdata

/-- What the line of an instruction shows: its address, its text and its bytes.  The text is
that of the instruction if its header is canonical, and data otherwise. -/
structure Presents (e : Entry) (b₀ b₁ : UInt8) (ws : List UInt16) : Prop where
  bytes_eq : e.bytes = instructionBytes b₀ b₁ ws
  line_eq : e.line = Text.hex 4 e.address ++ [':', ' '] ++ Text.padRight 24 e.text
    ++ " ; ".toList ++ Text.hexBytes e.bytes
  eq_text_iff : e.text = instructionText (Instruction.ofHeader b₀ b₁) ws ↔
    IsCanonicalHeader b₀ b₁
  eq_data_iff : e.text = dataText e.bytes ↔ ¬IsCanonicalHeader b₀ b₁

theorem presents_instructionEntry (address : Nat)
    (hws : ws.length = (Instruction.ofHeader b₀ b₁).immediateCount) :
    Presents (instructionEntry address b₀ b₁ ws) b₀ b₁ ws := by
  have hdiffer := instructionText_ne_dataText (Instruction.ofHeader b₀ b₁) ws
    (instructionBytes b₀ b₁ ws)
  have htext : (instructionEntry address b₀ b₁ ws).text
      = if spells (instructionText (Instruction.ofHeader b₀ b₁) ws) (instructionBytes b₀ b₁ ws) then
          instructionText (Instruction.ofHeader b₀ b₁) ws
        else
          dataText (instructionBytes b₀ b₁ ws) := by
    rw [instructionEntry, Entry.ofInstruction, wordsOf_flatMap_bytes]
    rfl
  have hbytes : (instructionEntry address b₀ b₁ ws).bytes = instructionBytes b₀ b₁ ws := rfl
  refine ⟨hbytes, rfl, ?_, ?_⟩
  · rw [htext, ← spells_instructionText_iff hws]
    split
    next h => simp [h]
    next h => simp [h, hdiffer.symm]
  · rw [htext, hbytes, ← spells_instructionText_iff hws]
    split
    next h => simp [h, hdiffer]
    next h => simp [h]

theorem Begins.eq_of_append {c₀ c₁ : UInt8} {vs : List UInt16} {rest : List UInt8}
    (h : Begins (instructionBytes c₀ c₁ vs ++ rest) b₀ b₁ ws)
    (hvs : vs.length = (Instruction.ofHeader c₀ c₁).immediateCount) :
    b₀ = c₀ ∧ b₁ = c₁ ∧ ws = vs := by
  obtain ⟨hws, hbytes⟩ := h
  obtain ⟨h₀, hbytes⟩ := List.cons_prefix_cons.mp hbytes
  obtain ⟨h₁, hbytes⟩ := List.cons_prefix_cons.mp hbytes
  have hlength : (ws.flatMap Word.bytes).length = (vs.flatMap Word.bytes).length := by
    rw [Word.length_flatMap_bytes, Word.length_flatMap_bytes, hws, hvs, h₀, h₁]
  have hwords := (List.prefix_of_prefix_length_le hbytes (List.prefix_append _ rest)
    (Nat.le_of_eq hlength)).eq_of_length hlength
  exact ⟨h₀, h₁, Word.flatMap_bytes_injective hwords⟩

namespace Lists

variable {address : Nat} {program : List UInt8} {e : Entry} {front back : List Entry}

/-- The first entry shows what the program begins with. -/
theorem first (h : Lists address program (e :: back)) :
    e.address = address ∧ e.bytes ≠ [] ∧
      ∀ b₀ b₁ ws, Begins program b₀ b₁ ws → Presents e b₀ b₁ ws := by
  cases h with
  | tail _ hne hend => exact ⟨rfl, hne, fun b₀ b₁ ws h => absurd h (hend b₀ b₁ ws)⟩
  | @instruction _ c₀ c₁ vs rest _ hvs _ =>
      refine ⟨rfl, List.cons_ne_nil _ _, fun b₀ b₁ ws h => ?_⟩
      obtain ⟨rfl, rfl, rfl⟩ := h.eq_of_append hvs
      exact presents_instructionEntry address hvs

/-- The entries behind some others list what these leave of the program. -/
theorem of_append (h : Lists address program (front ++ e :: back)) :
    Lists (address + (front.flatMap Entry.bytes).length)
      (program.drop (front.flatMap Entry.bytes).length) (e :: back) := by
  induction front generalizing address program with
  | nil => exact h
  | cons d front ih =>
      rw [List.cons_append] at h
      generalize hes : front ++ e :: back = es at h
      cases h with
      | tail _ _ _ => simp at hes
      | @instruction _ c₀ c₁ vs rest _ _ hrest =>
          subst hes
          have hnext := ih hrest
          have hbytes : (instructionEntry address c₀ c₁ vs).bytes = instructionBytes c₀ c₁ vs := rfl
          rw [List.flatMap_cons, hbytes, List.length_append, ← Nat.add_assoc, ← List.drop_drop,
            List.drop_left]
          exact hnext

end Lists

/-- A listing is exact.  Its lines are those of the entries, which show the bytes of the
program one after the other, each at the address that its first byte has.  An entry where a
complete instruction begins shows the text of the instruction if and only if the header is
canonical, and its bytes as data otherwise; and the text of a canonical instruction assembles
to the encoding of the instruction, whatever its words are. -/
theorem disassemble_exact (program : List UInt8) :
    disassemble program = String.ofList
        ((heading ++ (entries program).map Entry.line).flatMap (· ++ ['\n'])) ∧
      (entries program).flatMap Entry.bytes = program ∧
      (∀ front e back, entries program = front ++ e :: back →
        e.address = (front.flatMap Entry.bytes).length ∧ e.bytes ≠ [] ∧
          ∀ b₀ b₁ ws, Begins (program.drop e.address) b₀ b₁ ws → Presents e b₀ b₁ ws) ∧
      ∀ (i : Instruction) (ws : List UInt16), i.IsCanonical → ws.length = i.immediateCount →
        ∃ bytes, i.encode ws = .ok bytes ∧
          assemble (String.ofList (instructionText i ws)) = .ok bytes := by
  have hlists := lists_entries program
  refine ⟨rfl, hlists.shows.bytes, fun front e back h => ?_, fun i ws hi hws => ?_⟩
  · rw [h] at hlists
    obtain ⟨haddress, hne, hpresents⟩ := hlists.of_append.first
    rw [Nat.zero_add] at haddress
    rw [haddress]
    exact ⟨rfl, hne, hpresents⟩
  · obtain ⟨bytes, hencode, htext⟩ := ofText_of_isCanonical hi hws
    refine ⟨bytes, hencode, ?_⟩
    rw [assemble, String.toList_ofList]
    exact htext

/-- An addition, and an increment with a word in the place that it does not use. -/
def sumAndJunk : List UInt8 := [0x10, 0x76, 0x44, 0xC6, 0x12, 0x34]

/-- The first line shows an instruction, and the second shows data. -/
theorem disassemble_exact_sumAndJunk :
    ∃ e f, entries sumAndJunk = [e, f] ∧ e.text = "ADD AX, BX".toList ∧
      f.address = 2 ∧ f.text = "DB 68, 198, 18, 52".toList ∧
      assemble (String.ofList (instructionText ⟨.jmp, .relative, .direct, .imd, .al⟩ [0xFFFC]))
        = .ok [0x52, 0x0C, 0xFF, 0xFC] := by
  obtain ⟨-, -, hentries, hcanonical⟩ := disassemble_exact sumAndJunk
  have hnone : (Instruction.ofHeader 0x10 0x76).immediateCount = 0 := by decide
  have hone : (Instruction.ofHeader 0x44 0xC6).immediateCount = 1 := by decide
  have heq : entries sumAndJunk =
      [.ofInstruction 0 (Instruction.ofHeader 0x10 0x76) [0x10, 0x76] [],
        .ofInstruction 2 (Instruction.ofHeader 0x44 0xC6) [0x44, 0xC6] [0x12, 0x34]] := by
    simp [entries, sumAndJunk, addEntries, hnone, hone]
  have hfirst : IsCanonicalHeader 0x10 0x76 := by
    refine ⟨by decide, fun p _ => ?_, fun p hp => ?_⟩
    · cases p <;> decide
    · exact absurd (by cases p <;> decide) hp
  have hsecond : ¬IsCanonicalHeader 0x44 0xC6 := by
    intro h
    have hunused := (h.isCanonical.unused .source (by decide)).1
    revert hunused
    decide
  obtain ⟨-, -, hadd⟩ := hentries [] _ _ heq
  obtain ⟨haddress, -, hinc⟩ := hentries [_] _ _ heq
  have hadd := hadd 0x10 0x76 [] ⟨rfl, by decide⟩
  have hinc := hinc 0x44 0xC6 [0x1234] ⟨rfl, by decide⟩
  have hjump : Instruction.IsCanonical ⟨.jmp, .relative, .direct, .imd, .al⟩ := by
    refine ⟨fun p _ => ?_, fun p hp => ?_⟩
    · cases p <;> decide
    · cases p with
      | destination => exact absurd (by decide) hp
      | source => exact ⟨rfl, rfl⟩
  obtain ⟨bytes, hencode, hassemble⟩ := hcanonical _ [0xFFFC] hjump rfl
  cases hencode
  refine ⟨_, _, heq, (hadd.eq_text_iff.mpr hfirst).trans (by decide), haddress,
    (hinc.eq_data_iff.mpr hsecond).trans (by decide), hassemble⟩

end Listing
end CoreWar
