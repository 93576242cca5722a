import CoreWar.Proofs.Listing.Texts

/-!
# Listings assemble to the program

The entries of a listing show the bytes of the program one after the other
(`Lists`), and the text of each stands for its bytes: either it was tried out, or
it is data.
What `sourceOf` takes out of the lines is these texts with some blanks behind
them, so all of it together stands for the program.
-/

namespace CoreWar
namespace Listing

/-! ## Words -/

theorem wordsOf_flatMap_bytes (ws : List UInt16) : wordsOf (ws.flatMap Word.bytes) = ws := by
  induction ws with
  | nil => rfl
  | cons w ws ih =>
      change Word.ofBytes (Word.high w) (Word.low w) :: wordsOf (ws.flatMap Word.bytes) = w :: ws
      rw [Word.ofBytes_high_low, ih]

theorem exists_words {bytes : List UInt8} {n : Nat} (h : bytes.length = 2 * n) :
    ∃ ws : List UInt16, ws.length = n ∧ bytes = ws.flatMap Word.bytes := by
  induction n generalizing bytes with
  | zero => exact ⟨[], rfl, List.length_eq_zero_iff.mp h⟩
  | succ n ih =>
      obtain ⟨high, low, rest, rfl⟩ : ∃ high low rest, bytes = high :: low :: rest := by
        match bytes, h with
        | high :: low :: rest, _ => exact ⟨high, low, rest, rfl⟩
      have hrest : rest.length = 2 * n := by
        simp only [List.length_cons] at h
        omega
      obtain ⟨ws, hws, rfl⟩ := ih hrest
      refine ⟨Word.ofBytes high low :: ws, by rw [List.length_cons, hws], ?_⟩
      rw [List.flatMap_cons, Word.bytes, Word.high_ofBytes, Word.low_ofBytes]
      rfl

/-! ## Entries -/

/-- The bytes of an instruction: its header and its words. -/
def instructionBytes (b₀ b₁ : UInt8) (ws : List UInt16) : List UInt8 :=
  b₀ :: b₁ :: ws.flatMap Word.bytes

/-- A program begins with a complete instruction: with a header and all the words that
belong to it. -/
structure Begins (program : List UInt8) (b₀ b₁ : UInt8) (ws : List UInt16) : Prop where
  count : ws.length = (Instruction.ofHeader b₀ b₁).immediateCount
  bytes : instructionBytes b₀ b₁ ws <+: program

/-- The entry of a complete instruction at an address. -/
def instructionEntry (address : Nat) (b₀ b₁ : UInt8) (ws : List UInt16) : Entry :=
  .ofInstruction address (Instruction.ofHeader b₀ b₁) [b₀, b₁] (ws.flatMap Word.bytes)

/-- The entries of a program that starts at an address: one instruction after the other, and
what is left when there is no complete one any more. -/
inductive Lists : Nat → List UInt8 → List Entry → Prop
  | nil (address : Nat) : Lists address [] []
  | tail (address : Nat) {program : List UInt8} (hne : program ≠ [])
      (hend : ∀ b₀ b₁ ws, ¬Begins program b₀ b₁ ws) :
      Lists address program [⟨address, program, dataText program, true⟩]
  | instruction {address : Nat} {b₀ b₁ : UInt8} {ws : List UInt16} {rest : List UInt8}
      {es : List Entry} (hws : ws.length = (Instruction.ofHeader b₀ b₁).immediateCount)
      (h : Lists (address + (instructionBytes b₀ b₁ ws).length) rest es) :
      Lists address (instructionBytes b₀ b₁ ws ++ rest) (instructionEntry address b₀ b₁ ws :: es)

theorem length_instructionBytes (b₀ b₁ : UInt8) (ws : List UInt16) :
    (instructionBytes b₀ b₁ ws).length = 2 + 2 * ws.length := by
  rw [instructionBytes, List.length_cons, List.length_cons, Word.length_flatMap_bytes]
  omega

/-- A program that is too short for the words of its header begins with no instruction. -/
theorem not_begins {b₀ b₁ : UInt8} {rest : List UInt8}
    (h : rest.length < 2 * (Instruction.ofHeader b₀ b₁).immediateCount) (c₀ c₁ : UInt8)
    (ws : List UInt16) : ¬Begins (b₀ :: b₁ :: rest) c₀ c₁ ws := by
  rintro ⟨hcount, hbytes⟩
  obtain ⟨h₀, hbytes⟩ := List.cons_prefix_cons.mp hbytes
  obtain ⟨h₁, hbytes⟩ := List.cons_prefix_cons.mp hbytes
  have hle := hbytes.length_le
  rw [Word.length_flatMap_bytes, hcount, h₀, h₁] at hle
  omega

theorem addEntries_lists (done : List Entry) (address : Nat) (program : List UInt8) :
    ∃ es, addEntries done address program = es.reverse ++ done ∧ Lists address program es := by
  fun_induction addEntries done address program with
  | case1 done address => exact ⟨[], rfl, .nil address⟩
  | case2 done address b =>
      refine ⟨_, rfl, .tail address (List.cons_ne_nil b []) fun b₀ b₁ ws h => ?_⟩
      have hle := h.bytes.length_le
      rw [length_instructionBytes, List.length_singleton] at hle
      omega
  | case3 done address b0 b1 rest i n words hshort =>
      refine ⟨_, rfl, .tail address (List.cons_ne_nil b0 (b1 :: rest)) (not_begins ?_)⟩
      have hrest : rest.length < n := by
        rw [List.length_take] at hshort
        omega
      exact hrest
  | case4 done address b0 b1 rest i n words hlong ih =>
      obtain ⟨es, hes, hlists⟩ := ih
      -- The words are all there, so the next entry starts right behind them.
      have hlength : words.length = n := by
        have hle : words.length ≤ n := List.length_take_le n rest
        omega
      obtain ⟨ws, hws, hwords⟩ := exists_words hlength
      have hnext : address + 2 + n = address + (instructionBytes b0 b1 ws).length := by
        rw [length_instructionBytes, hws]
        omega
      have hsplit : b0 :: b1 :: rest = instructionBytes b0 b1 ws ++ rest.drop n := by
        rw [instructionBytes, ← hwords]
        simp [words]
      refine ⟨instructionEntry address b0 b1 ws :: es, ?_, ?_⟩
      · rw [hes, List.reverse_cons, List.append_assoc, List.singleton_append, hwords]
        rfl
      · rw [hsplit]
        exact .instruction hws (hnext ▸ hlists)

theorem lists_entries (program : List UInt8) : Lists 0 program (entries program) := by
  obtain ⟨es, hes, hlists⟩ := addEntries_lists [] 0 program
  rw [entries, hes, List.append_nil, List.reverse_reverse]
  exact hlists

/-- Entries that show a program which starts at an address. -/
structure Shows (address : Nat) (program : List UInt8) (es : List Entry) : Prop where
  bytes : es.flatMap Entry.bytes = program
  address_lt : ∀ e ∈ es, e.address < address + program.length
  plain : ∀ e ∈ es, IsPlain e.text
  standsFor : ∀ e ∈ es, (Assembly.Line.ofText e.text).StandsFor e.bytes

theorem spells_iff {text : List Char} {bytes : List UInt8} :
    spells text bytes = true ↔ Assembly.ofText text = .ok bytes := by
  unfold spells
  split
  next bs hbs => simp [hbs]
  next hbs => simp [hbs]

theorem shows_nil (address : Nat) : Shows address [] [] := ⟨rfl, by simp, by simp, by simp⟩

/-- A program that is shown as data in one line. -/
theorem shows_data (address : Nat) {program : List UInt8} (h : program ≠ []) :
    Shows address program [⟨address, program, dataText program, true⟩] where
  bytes := by simp
  address_lt := by
    have hpos := List.length_pos_iff.mpr h
    simpa using hpos
  plain := by simpa using isPlain_dataText program
  standsFor := by simpa using standsFor_dataText h

/-- The text of an entry was tried out, or it is data. -/
theorem standsFor_ofInstruction (address : Nat) (i : Instruction) {header words : List UInt8}
    (h : header ++ words ≠ []) :
    IsPlain (Entry.ofInstruction address i header words).text ∧
      (Assembly.Line.ofText (Entry.ofInstruction address i header words).text).StandsFor
        (header ++ words) := by
  rw [Entry.ofInstruction]
  dsimp only
  split
  next hspells =>
    have hplain := isPlain_instructionText i (wordsOf words)
    refine ⟨hplain, Assembly.standsFor_of_ofText ?_ ?_ (spells_iff.mp hspells)⟩
    · exact fun hc => (hplain _ hc).2.2 rfl
    · exact fun hc => (hplain _ hc).2.1 rfl
  · exact ⟨isPlain_dataText _, standsFor_dataText h⟩

theorem shows_cons {rest : List UInt8} {es : List Entry} {e : Entry} (hne : e.bytes ≠ [])
    (hplain : IsPlain e.text) (he : (Assembly.Line.ofText e.text).StandsFor e.bytes)
    (h : Shows (e.address + e.bytes.length) rest es) :
    Shows e.address (e.bytes ++ rest) (e :: es) where
  bytes := by rw [List.flatMap_cons, h.bytes]
  address_lt := by
    have hpos := List.length_pos_iff.mpr hne
    rw [List.forall_mem_cons, List.length_append]
    refine ⟨by omega, fun d hd => ?_⟩
    have hlt := h.address_lt d hd
    omega
  plain := List.forall_mem_cons.mpr ⟨hplain, h.plain⟩
  standsFor := List.forall_mem_cons.mpr ⟨he, h.standsFor⟩

theorem Lists.shows {address : Nat} {program : List UInt8} {es : List Entry}
    (h : Lists address program es) : Shows address program es := by
  induction h with
  | nil address => exact shows_nil address
  | tail address hne _ => exact shows_data address hne
  | @instruction address b₀ b₁ ws rest es _ _ ih =>
      have hne : [b₀, b₁] ++ ws.flatMap Word.bytes ≠ [] := List.cons_ne_nil _ _
      obtain ⟨hplain, hstands⟩ := standsFor_ofInstruction address (Instruction.ofHeader b₀ b₁) hne
      exact shows_cons (e := instructionEntry address b₀ b₁ ws) hne hplain hstands ih

theorem shows_entries (program : List UInt8) : Shows 0 program (entries program) :=
  (lists_entries program).shows

/-! ## Lines -/

/-- What is taken out of the line of an entry. -/
def Entry.source (e : Entry) : List Char := (e.line.drop 6).takeWhile (· ≠ ';')

theorem isEntryLine_append (front rest : List Char) :
    isEntryLine (front ++ ':' :: ' ' :: rest) = true := by
  induction front with
  | nil => rfl
  | cons c cs ih =>
      rw [List.cons_append]
      unfold isEntryLine
      split
      · rfl
      next hcons =>
        cases hcons
        exact ih
      next hnil => cases hnil

/-- The line of an entry: its address, its text with blanks behind it, and perhaps
a comment. -/
theorem line_eq (e : Entry) : ∃ n comment,
    e.line = Text.hex 4 e.address ++ ':' :: ' ' :: (e.text ++ List.replicate n ' ' ++ comment) ∧
      (∀ c ∈ comment.head?, c = ';') ∧ '\n' ∉ comment := by
  rw [Entry.line]
  split
  · exact ⟨0, [], by simp, by simp, by simp⟩
  · refine ⟨24 - e.text.length + 1, ';' :: ' ' :: Text.hexBytes e.bytes, ?_, by simp, ?_⟩
    · simp [Text.padRight, List.replicate_succ']
    · have hbytes := isPlain_hexBytes e.bytes
      intro hc
      simp only [List.mem_cons] at hc
      obtain hc | hc | hc := hc
      · simp at hc
      · simp at hc
      · exact (hbytes _ hc).2.2 rfl

theorem isEntryLine_line (e : Entry) : isEntryLine e.line = true := by
  obtain ⟨n, comment, hline, -⟩ := line_eq e
  rw [hline]
  exact isEntryLine_append _ _

theorem newline_not_mem_line {e : Entry} (h : IsPlain e.text) : '\n' ∉ e.line := by
  obtain ⟨n, comment, hline, -, hcomment⟩ := line_eq e
  rw [hline]
  simp only [List.mem_append, List.mem_cons, List.mem_replicate]
  rintro (hc | hc | hc | (hc | ⟨-, hc⟩) | hc)
  · exact (isPlain_hex _ _ _ hc).2.2 rfl
  · simp at hc
  · simp at hc
  · exact (h _ hc).2.2 rfl
  · simp at hc
  · exact hcomment hc

/-- From the line of an entry its text is taken, with some blanks behind it. -/
theorem source_eq {e : Entry} (haddress : e.address < 65536) (h : IsPlain e.text) :
    ∃ n, e.source = e.text ++ List.replicate n ' ' := by
  obtain ⟨n, comment, hline, hcomment, -⟩ := line_eq e
  have hdrop : e.line.drop 6 = e.text ++ List.replicate n ' ' ++ comment := by
    rw [hline, List.drop_append, length_hex_four haddress, List.drop_of_length_le]
    · rfl
    · rw [length_hex_four haddress]
      decide
  have hkept : ∀ c ∈ e.text ++ List.replicate n ' ', decide (c ≠ ';') = true := by
    intro c hc
    rw [decide_eq_true_eq]
    obtain hc | hc := List.mem_append.mp hc
    · exact (h c hc).1
    · obtain ⟨-, rfl⟩ := List.mem_replicate.mp hc
      decide
  have hcut : ∀ c ∈ comment.head?, decide (c ≠ ';') = false := fun c hc =>
    decide_eq_false (not_not.mpr (hcomment c hc))
  refine ⟨n, ?_⟩
  rw [Entry.source, hdrop]
  exact (Text.takeWhile_dropWhile_append hkept hcut).1

/-- Blanks behind a plain text do not matter. -/
theorem ofText_append_blanks {cs : List Char} (h : IsPlain cs) (n : Nat) :
    Assembly.Line.ofText (cs ++ List.replicate n ' ') = Assembly.Line.ofText cs := by
  have hblanks : IsPlain (List.replicate n ' ') := by
    intro c hc
    obtain ⟨-, rfl⟩ := List.mem_replicate.mp hc
    decide
  rw [(h.append hblanks).ofText_eq, h.ofText_eq, Text.trim_append_of_isBlank]
  intro c hc
  obtain ⟨-, rfl⟩ := List.mem_replicate.mp hc
  decide

/-! ## Listings -/

theorem isEntryLine_heading : ∀ l ∈ heading, isEntryLine l = false := by decide

theorem newline_not_mem_heading : ∀ l ∈ heading, '\n' ∉ l := by decide

/-- The assembly text in a listing consists of the texts of the entries. -/
theorem sourceOf_disassemble (program : List UInt8) :
    sourceOf (Text.split '\n' (disassemble program).toList)
      = Text.join ['\n'] ((entries program).map Entry.source) := by
  have hlines : ∀ l ∈ lines program, '\n' ∉ l := by
    rw [lines, List.forall_mem_append, List.forall_mem_map]
    exact ⟨newline_not_mem_heading,
      fun e he => newline_not_mem_line ((shows_entries program).plain e he)⟩
  have hheading : heading.filter isEntryLine = [] :=
    List.filter_eq_nil_iff.mpr fun l hl => by simp [isEntryLine_heading l hl]
  have hentries : ((entries program).map Entry.line).filter isEntryLine
      = (entries program).map Entry.line := by
    rw [List.filter_eq_self, List.forall_mem_map]
    exact fun e _ => isEntryLine_line e
  rw [disassemble, String.toList_ofList, Text.split_flatMap_ended hlines, sourceOf, lines,
    List.filter_append, List.filter_append, hheading, hentries]
  simp only [List.nil_append, List.filter_cons, isEntryLine, List.filter_nil, if_false,
    Bool.false_eq_true, List.append_nil, List.map_map]
  rfl

/-- The assembly text in the listing of a program assembles to the program. -/
theorem assemble_sourceOf_disassemble {program : List UInt8} (h : program.length ≤ 65536) :
    assemble (String.ofList (sourceOf (Text.split '\n' (disassemble program).toList)))
      = .ok program := by
  have hshows := shows_entries program
  have hsource : ∀ e ∈ entries program, ∃ n, e.source = e.text ++ List.replicate n ' ' := by
    intro e he
    have hlt := hshows.address_lt e he
    exact source_eq (by omega) (hshows.plain e he)
  have hline : ∀ e ∈ entries program, '\n' ∉ e.source := fun e he hc =>
    newline_not_mem_line (hshows.plain e he)
      (List.mem_of_mem_drop ((List.takeWhile_sublist _).mem hc))
  have hstands : ∀ e ∈ entries program,
      (Assembly.Line.ofText e.source).StandsFor e.bytes := by
    intro e he
    obtain ⟨n, hn⟩ := hsource e he
    rw [hn, ofText_append_blanks (hshows.plain e he)]
    exact hshows.standsFor e he
  rw [assemble, String.toList_ofList, sourceOf_disassemble,
    Assembly.ofText_eq_ok_of_standsFor hline hstands, hshows.bytes]

/-- Two instructions, with junk in the slots of a third between them, and a tail. -/
theorem assemble_sourceOf_disassemble_seven :
    [0x10, 0x16, 0x00, 0xFF, 0x08, 0x26, 0x20].length ≤ 65536 ∧
      assemble (String.ofList (sourceOf (Text.split '\n'
        (disassemble [0x10, 0x16, 0x00, 0xFF, 0x08, 0x26, 0x20]).toList)))
        = .ok [0x10, 0x16, 0x00, 0xFF, 0x08, 0x26, 0x20] :=
  ⟨by decide, assemble_sourceOf_disassemble (by decide)⟩

end Listing
end CoreWar
