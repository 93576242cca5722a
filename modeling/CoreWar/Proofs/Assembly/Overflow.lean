import CoreWar.Proofs.Assembly.Composition
import CoreWar.Proofs.Assembly.NumberTexts
import CoreWar.Proofs.Assembly.Sizes

/-!
# Where the assembler's numbers overflow

Negatives live in thirty-two signed bits, and sizes in sixty-four.  A negative overflows for the one
number that has no opposite.  It can only come from digits with a minus sign of their own behind the
first one, so assembling stops with an overflow exactly where it comes to read such a text: a minus
sign, the mark of a base or none, and a second minus sign with the digits of that number.

Sizes never overflow, because a program is not much longer than its text.  These are the sums that
are taken: the numbers of the lines, the places behind the colons, and the addresses behind data and
behind the header and the words of an instruction.
-/

namespace CoreWar
namespace Assembly

open Checks

/-! ## Statements -/

theorem Numeral.toByte_ne_overflow (x : Int) : toByte x ≠ .error .overflow := by
  unfold toByte
  intro h
  split at h <;> cases h

theorem Numeral.toWord_ne_overflow (x : Int) : toWord x ≠ .error .overflow := by
  unfold toWord
  intro h
  split at h <;> cases h

/-- An operand overflows if it is read as a number that does. -/
theorem Operand.parse_eq_overflow_iff {text : List Char} :
    parse text = .error .overflow ↔
      looksNumeric (bare text) = true ∧ Numeral.NegatesLeast (Text.trim (bare text)) := by
  by_cases hnumber : looksNumeric (bare text) = true
  · rw [parse_of_looksNumeric hnumber, and_iff_right hnumber, bind_eq_error_of_ne,
      Numeral.parse_eq_overflow_iff]
    exact fun x h => Numeral.toWord_ne_overflow x (bind_pure_eq_error.mp h)
  · refine iff_of_false ?_ fun h => hnumber h.1
    rw [parse_eq]
    intro h
    cases hnamed : named? text with
    | some l =>
        rw [hnamed] at h
        cases h
    | none =>
        rw [hnamed, Option.map_none, Option.getD_none, immediate, if_neg hnumber] at h
        split at h
        · cases h
        · split at h <;> cases h

namespace Statement

variable {text t : List Char} {s : Statement} {op : Opcode} {address n : Nat}

/-- The texts that are read as numbers in a statement, up to the first that is wrong. -/
inductive Reads (text : List Char) : List Char → Prop
  | byte {t : List Char} (hname : mnemonic text = "DB")
      (h : Reached (fun t => do Numeral.toByte (← Numeral.parse t)) (arguments text) t) :
      Reads text t
  | word {t : List Char} (hname : mnemonic text = "DW")
      (h : Reached (fun t => do Numeral.toWord (← Numeral.parse t)) (arguments text) t) :
      Reads text t
  | operand {op : Opcode} {t : List Char} (hname : mnemonic text = op.name)
      (harity : (arguments text).length = op.arity)
      (h : Reached Operand.parse (arguments text) t)
      (hnumber : Operand.looksNumeric (Operand.bare t) = true) : Reads text (Operand.bare t)

/-- The sums that are taken for a statement at an address: the address behind each of its data, or
the addresses behind the header and each word of an instruction. -/
inductive Sums (address : Nat) (text : List Char) : Nat → Prop
  | byte {done rest : List (List Char)} {bs : List UInt8} (hname : mnemonic text = "DB")
      (hsplit : arguments text = done ++ rest)
      (hdone : (done.mapM fun t => do Numeral.toByte (← Numeral.parse t)) = .ok bs) :
      Sums address text (address + bs.length)
  | word {done rest : List (List Char)} {ws : List UInt16} (hname : mnemonic text = "DW")
      (hsplit : arguments text = done ++ rest)
      (hdone : (done.mapM fun t => do Numeral.toWord (← Numeral.parse t)) = .ok ws) :
      Sums address text (address + 2 * ws.length)
  | instruction {op : Opcode} {s : Statement} {k : Nat} (hname : mnemonic text = op.name)
      (h : Statement.instruction op (arguments text) = .ok s) (hk : k ≤ s.slots.length) :
      Sums address text (address + (s.head.length + 2 * k))

theorem data_eq_overflow_iff {β : Type} {item : Int → Except (Stop Cause) β}
    {texts : List (List Char)} (hitem : ∀ x, item x ≠ .error .overflow) :
    (texts.mapM fun t => do item (← Numeral.parse t)) = .error .overflow ↔
      ∃ t, Reached (fun t => do item (← Numeral.parse t)) texts t ∧
        Numeral.NegatesLeast (Text.trim t) := by
  rw [mapM_eq_error_iff]
  simp only [bind_eq_error_of_ne hitem, Numeral.parse_eq_overflow_iff]

theorem bytes_eq_overflow_iff {texts : List (List Char)} :
    bytes texts = .error .overflow ↔
      ∃ t, Reached (fun t => do Numeral.toByte (← Numeral.parse t)) texts t ∧
        Numeral.NegatesLeast (Text.trim t) := by
  rw [bytes, bind_pure_eq_error]
  exact data_eq_overflow_iff Numeral.toByte_ne_overflow

theorem words_eq_overflow_iff {texts : List (List Char)} :
    words texts = .error .overflow ↔
      ∃ t, Reached (fun t => do Numeral.toWord (← Numeral.parse t)) texts t ∧
        Numeral.NegatesLeast (Text.trim t) := by
  rw [words, bind_pure_eq_error]
  exact data_eq_overflow_iff Numeral.toWord_ne_overflow

theorem ofOperands_ne_overflow (op : Opcode) (os : List Operand) :
    ofOperands op os ≠ .error .overflow := by
  unfold ofOperands
  intro h
  split at h <;> cases h

theorem instruction_eq_overflow_iff {texts : List (List Char)} :
    instruction op texts = .error .overflow ↔
      texts.length = op.arity ∧ ∃ t, Reached Operand.parse texts t ∧
        Operand.looksNumeric (Operand.bare t) = true ∧
        Numeral.NegatesLeast (Text.trim (Operand.bare t)) := by
  rw [instruction_eq]
  split
  next harity =>
    refine iff_of_false ?_ fun h => harity h.1
    intro h
    cases h
  next harity =>
    rw [and_iff_right (not_not.mp harity), bind_eq_error_of_ne (ofOperands_ne_overflow op),
      mapM_eq_error_iff]
    simp only [Operand.parse_eq_overflow_iff]

/-- A statement overflows where it comes to read the negative of the least number. -/
theorem parse_eq_overflow_iff :
    parse text = .error .overflow ↔ ∃ t, Reads text t ∧ Numeral.NegatesLeast (Text.trim t) := by
  constructor
  · intro h
    by_cases hbytes : mnemonic text = "DB"
    · rw [parse_of_bytes hbytes, bytes_eq_overflow_iff] at h
      obtain ⟨t, ht, hleast⟩ := h
      exact ⟨t, .byte hbytes ht, hleast⟩
    · by_cases hwords : mnemonic text = "DW"
      · rw [parse_of_words hwords, words_eq_overflow_iff] at h
        obtain ⟨t, ht, hleast⟩ := h
        exact ⟨t, .word hwords ht, hleast⟩
      · rw [parse_of_operation hbytes hwords] at h
        cases hop : Opcode.ofName? (mnemonic text) with
        | none =>
            rw [hop] at h
            cases h
        | some op =>
            rw [hop, Option.elim_some, instruction_eq_overflow_iff] at h
            obtain ⟨harity, t, ht, hnumber, hleast⟩ := h
            exact ⟨_, .operand (Opcode.eq_name_of_ofName? hop) harity ht hnumber, hleast⟩
  · rintro ⟨_, ⟨hname, ht⟩ | ⟨hname, ht⟩ | ⟨hname, harity, ht, hnumber⟩, hleast⟩
    · rw [parse_of_bytes hname, bytes_eq_overflow_iff]
      exact ⟨_, ht, hleast⟩
    · rw [parse_of_words hname, words_eq_overflow_iff]
      exact ⟨_, ht, hleast⟩
    · rw [parse_of_mnemonic hname, instruction_eq_overflow_iff]
      exact ⟨harity, _, ht, hnumber, hleast⟩

/-- No sum is far behind the text. -/
theorem Sums.le (h : Sums address text n) : n ≤ address + 2 * text.length := by
  have harguments := length_arguments_add_le text
  rcases h with ⟨-, hsplit, hdone⟩ | ⟨-, hsplit, hdone⟩ | ⟨hname, h, hk⟩
  · have hlength := congrArg List.length hsplit
    rw [List.length_append, ← length_of_mapM_eq_ok hdone] at hlength
    omega
  · have hlength := congrArg List.length hsplit
    rw [List.length_append, ← length_of_mapM_eq_ok hdone] at hlength
    omega
  · have hsize := size_instruction_le hname h
    rw [Statement.size] at hsize
    omega

end Statement

/-! ## Lines -/

theorem mapError_map_eq_overflow_iff {ε δ α : Type} {x : Except (Stop ε) α} {f : ε → δ} :
    x.mapError (Stop.map f) = .error .overflow ↔ x = .error .overflow := by
  rcases x with (_ | e) | a <;> simp [Except.mapError, Stop.map]

namespace Layout

variable {l l₁ : Layout} {line n : Nat} {text : List Char} {texts : List (List Char)}

/-- A line comes to its turn: the lines before it are laid out. -/
inductive Visits : Layout → Nat → List (List Char) → Layout → Nat → List Char → Prop
  | here {l : Layout} {line : Nat} {text : List Char} {texts : List (List Char)} :
      Visits l line (text :: texts) l line text
  | later {l l₁ l₂ : Layout} {line n : Nat} {text t : List Char} {texts : List (List Char)}
      (htext : l.addLine line text = .ok l₁) (h : Visits l₁ (line + 1) texts l₂ n t) :
      Visits l line (text :: texts) l₂ n t

/-- The statement of a line comes to its turn: the label of the line is defined. -/
structure Opens (l : Layout) (text : List Char) (l₁ : Layout) : Prop where
  label : l.addLabel (Line.ofText text).label = .ok l₁
  body : (Line.ofText text).body ≠ []

theorem address_addLabel {label : Option (List Char)} (h : l.addLabel label = .ok l₁) :
    l₁.address = l.address := by
  cases label with
  | none =>
      cases h
      rfl
  | some label =>
      obtain ⟨name, -, hdefine⟩ := bind_eq_ok.mp h
      rw [(define_eq_ok hdefine).2]

theorem addLabel_ne_overflow (l : Layout) (label : Option (List Char)) :
    l.addLabel label ≠ .error .overflow := by
  intro h
  cases label with
  | none => cases h
  | some label =>
      obtain hname | ⟨name, -, hdefine⟩ := bind_eq_error.mp h
      · unfold Line.labelName at hname
        dsimp only at hname
        split at hname <;> cases hname
      · unfold define at hdefine
        split at hdefine <;> cases hdefine

/-- A line overflows where its statement does. -/
theorem addLine_eq_overflow_iff :
    l.addLine line text = .error .overflow ↔
      ∃ l₁, l.Opens text l₁ ∧ Statement.parse (Line.ofText text).body = .error .overflow := by
  have hbody : ∀ l₁ : Layout, l₁.addBody line (Line.ofText text).body = .error .overflow ↔
      (Line.ofText text).body ≠ [] ∧
        Statement.parse (Line.ofText text).body = .error .overflow := by
    intro l₁
    unfold addBody
    split
    next hnil =>
      refine iff_of_false ?_ fun h => h.1 (List.isEmpty_iff.mp hnil)
      intro h
      cases h
    next hne =>
      rw [and_iff_right fun hnil => hne (List.isEmpty_iff.mpr hnil)]
      refine bind_eq_error_of_ne fun s h => ?_
      cases h
  rw [addLine_eq, bind_eq_error, or_iff_right (addLabel_ne_overflow l _)]
  simp only [hbody]
  constructor
  · rintro ⟨l₁, hlabel, hne, hparse⟩
    exact ⟨l₁, ⟨hlabel, hne⟩, hparse⟩
  · rintro ⟨l₁, ⟨hlabel, hne⟩, hparse⟩
    exact ⟨l₁, hlabel, hne, hparse⟩

/-- Lines overflow where one of them does when it comes to its turn. -/
theorem addLines_eq_overflow_iff :
    l.addLines (texts.zipIdx line) = .error .overflow ↔
      ∃ l₁ n text, Visits l line texts l₁ n text ∧ l₁.addLine n text = .error .overflow := by
  induction texts generalizing l line with
  | nil =>
      constructor
      · intro h
        cases h
      · rintro ⟨l₁, n, text, h, -⟩
        cases h
  | cons first rest ih =>
      rw [List.zipIdx_cons, addLines, List.foldlM_cons, bind_eq_error]
      dsimp only
      rw [mapError_map_eq_overflow_iff]
      constructor
      · rintro (h | ⟨l₁, hfirst, hrest⟩)
        · exact ⟨l, line, first, .here, h⟩
        · obtain ⟨l₂, n, text, hvisits, h⟩ := ih.mp hrest
          exact ⟨l₂, n, text, .later (mapError_eq_ok_iff.mp hfirst) hvisits, h⟩
      · rintro ⟨l₂, n, text, _ | ⟨hfirst, hvisits⟩, h⟩
        · exact .inl h
        · exact .inr ⟨_, mapError_eq_ok_iff.mpr hfirst, ih.mpr ⟨l₂, n, text, hvisits, h⟩⟩

theorem bytes_ne_overflow (l : Layout) : l.bytes ≠ .error .overflow := by
  intro h
  cases failsWith_bytes .overflow h

/-- A line that comes to its turn has a number and an address for which there was room before. -/
theorem Visits.le (h : Visits l line texts l₁ n text) :
    n < line + texts.length ∧ text ∈ texts ∧
      l₁.address + 2 * text.length ≤ l.address + 2 * texts.flatten.length := by
  induction h with
  | here =>
      rw [List.length_cons, List.flatten_cons, List.length_append]
      exact ⟨by omega, List.mem_cons_self, by omega⟩
  | @later l l₁ l₂ line n text t texts htext _ ih =>
      obtain ⟨hnumber, hmem, haddress⟩ := ih
      have hsize := Line.size_le text
      rw [address_addLine htext] at haddress
      rw [List.length_cons, List.flatten_cons, List.length_append]
      exact ⟨by omega, List.mem_cons_of_mem _ hmem, by omega⟩

end Layout

/-! ## Programs -/

/-- The texts that are read as numbers while a program is assembled, up to the first line that is
wrong. -/
inductive Reads (source : String) : List Char → Prop
  | intro {l l₁ : Layout} {line : Nat} {text t : List Char}
      (hvisits : Layout.Visits {} 1 (Text.split '\n' source.toList) l line text)
      (hopens : l.Opens text l₁) (h : Statement.Reads (Line.ofText text).body t) :
      Reads source t

/-- The sums that are taken while a program is assembled: the number of each line, the place behind
its colon, and the sums for its statement. -/
inductive Sums (source : String) : Nat → Prop
  | line {l : Layout} {line : Nat} {text : List Char}
      (hvisits : Layout.Visits {} 1 (Text.split '\n' source.toList) l line text) :
      Sums source line
  | colon {l : Layout} {line : Nat} {text label : List Char}
      (hvisits : Layout.Visits {} 1 (Text.split '\n' source.toList) l line text)
      (hlabel : (Line.ofText text).label = some label) :
      Sums source (Text.byteCount label + 1)
  | statement {l l₁ : Layout} {line n : Nat} {text : List Char}
      (hvisits : Layout.Visits {} 1 (Text.split '\n' source.toList) l line text)
      (hopens : l.Opens text l₁) (h : Statement.Sums l₁.address (Line.ofText text).body n) :
      Sums source n

variable {source : String} {n : Nat}

/-- Assembling overflows where it comes to read the negative of the least number. -/
theorem assemble_eq_overflow_iff :
    assemble source = .error .overflow ↔
      ∃ t, Reads source t ∧ Numeral.NegatesLeast (Text.trim t) := by
  rw [assemble, ofText, bind_eq_error_of_ne Layout.bytes_ne_overflow,
    Layout.addLines_eq_overflow_iff]
  simp only [Layout.addLine_eq_overflow_iff, Statement.parse_eq_overflow_iff]
  constructor
  · rintro ⟨l, line, text, hvisits, l₁, hopens, t, ht, hleast⟩
    exact ⟨t, .intro hvisits hopens ht, hleast⟩
  · rintro ⟨t, ⟨hvisits, hopens, ht⟩, hleast⟩
    exact ⟨_, _, _, hvisits, _, hopens, t, ht, hleast⟩

/-- No sum is far behind the source, so none overflows.  Texts are at most half as long as the
range of places in them, as all texts in memory are. -/
theorem Sums.lt (hsize : 2 * source.utf8ByteSize < UInt64.size) (h : Sums source n) :
    n < UInt64.size := by
  have hrange : UInt64.size = 0x10000000000000000 := rfl
  have hcount : Text.byteCount source.toList = source.utf8ByteSize := by
    rw [← Text.utf8ByteSize_ofList, String.ofList_toList]
  have hflat := Text.flatten_split_sublist '\n' source.toList
  have hlength := Text.length_le_byteCount source.toList
  have hshort := hflat.length_le
  rcases h with hvisits | ⟨hvisits, hlabel⟩ | @⟨_, _, _, _, text, hvisits, hopens, h⟩
  · have hlines := Text.length_split_le '\n' source.toList
    have hnumber := hvisits.le.1
    omega
  · have hpart := (List.sublist_flatten_of_mem hvisits.le.2.1).trans hflat
    have hbytes := Text.byteCount_le_of_sublist hpart
    have hcolon := Line.byteCount_label_lt hlabel
    omega
  · have haddress := hvisits.le.2.2
    have hbody := (Line.body_sublist text).length_le
    have hsum := h.le
    rw [Layout.address_addLabel hopens.label] at hsum
    change _ ≤ 0 + _ at haddress
    omega

/-- Assembling stops with an overflow exactly if it comes to read the negative of the least number
of thirty-two bits, and else it ends with a program or an error.  Of the numbers whose negative is
taken, just this one has none, and no sum overflows. -/
theorem overflows_iff (hsize : 2 * source.utf8ByteSize < UInt64.size) :
    (assemble source = .error .overflow ↔
        ∃ t, Reads source t ∧ Numeral.NegatesLeast (Text.trim t)) ∧
      ((∀ t, Reads source t → ¬Numeral.NegatesLeast (Text.trim t)) →
        (∃ program, assemble source = .ok program) ∨ ∃ e, assemble source = .error (.fault e)) ∧
      (∀ n, Sums source n → n < UInt64.size) ∧
      ∀ cs x, Numeral.based? cs = some x →
        (Numeral.fits (-x) = true ↔ ¬Numeral.NegatesLeast ('-' :: cs)) := by
  refine ⟨assemble_eq_overflow_iff, fun hnone => ?_, fun n hn => hn.lt hsize, fun cs x hx =>
    Numeral.fits_neg_iff hx⟩
  cases hresult : assemble source with
  | ok program => exact .inl ⟨program, rfl⟩
  | error stop =>
      cases stop with
      | fault e => exact .inr ⟨e, rfl⟩
      | overflow =>
          obtain ⟨t, ht, hleast⟩ := assemble_eq_overflow_iff.mp hresult
          exact absurd hleast (hnone t ht)

/-- The least number is met behind a number in order, and has no negative; the one before it has. -/
theorem overflows_iff_data :
    (∃ t, Reads "DW 7, -0x-80000000" t ∧ Numeral.NegatesLeast (Text.trim t)) ∧
      (∀ n, Sums "DW 7, -0x-80000000" n → n < UInt64.size) ∧
      Numeral.NegatesLeast "-0x-80000000".toList ∧
      ¬Numeral.NegatesLeast "--2147483647".toList := by
  have hsize : 2 * "DW 7, -0x-80000000".utf8ByteSize < UInt64.size := by decide
  obtain ⟨hstops, -, hsums, hnegative⟩ := overflows_iff hsize
  refine ⟨hstops.mp rfl, hsums, ?_, (hnegative "-2147483647".toList (-0x7FFFFFFF) rfl).mp rfl⟩
  by_contra hleast
  have hfits := (hnegative "0x-80000000".toList (-0x80000000) rfl).mpr hleast
  cases hfits

/-- The least number is reached with two minus signs. -/
theorem overflows_least :
    assemble "DB --2147483648" = .error .overflow ∧
      Numeral.based? "-2147483648".toList = some (-0x80000000) ∧
      Numeral.fits (- -0x80000000) = false :=
  ⟨rfl, rfl, rfl⟩

end Assembly
end CoreWar
