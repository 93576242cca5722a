import CoreWar.Assembly
import CoreWar.Proofs.Arena.Encoding
import CoreWar.Proofs.Checks

/-!
# What the text of an instruction says

The grammar of operands, apart from the functions that read them.  A text names
a register or a pointer through one, or it stands for a word, in brackets or
not: a number that fits, or a label.  A dollar sign makes an operand relative,
and one that stands for a label is relative anyhow.  The reader accepts exactly
the texts of the grammar, so what a text says is unique.
-/

namespace CoreWar

/-- No operation is named like data. -/
theorem Opcode.name_ne_data (op : Opcode) : op.name ≠ "DB" ∧ op.name ≠ "DW" := by
  cases op <;> decide

namespace Assembly

open Checks

/-! ## Operands -/

/-- The word that a text in capitals stands for. -/
inductive Slot.Written : List Char → Slot → Prop
  | value {text : List Char} {x : Int} (hfirst : Operand.looksNumeric text = true)
      (hx : Numeral.parse text = .ok x) (hlow : -32768 ≤ x) (hhigh : x ≤ 65535) :
      Written text (.value (UInt16.ofInt x))
  | label {text : List Char} (hne : text ≠ []) (hfirst : Operand.looksNumeric text = false)
      (hall : ∀ c ∈ text, Operand.isLabelChar c = true) :
      Written text (.label (String.ofList text))

namespace Operand

/-- The registers that can be pointed through. -/
def pointers : List (String × Location) := [("AX", .pax), ("BX", .pbx), ("CX", .pcx)]

/-- A text in brackets. -/
def inBrackets (inner : List Char) : List Char := '[' :: (inner ++ [']'])

/-- The place that a text without dollar sign names, and the word it stands for. -/
inductive Names : List Char → Location → Option Slot → Prop
  | register {text : List Char} {l : Location} (hl : l ∈ registers)
      (hname : String.ofList (Text.upper text) = l.name) : Names text l none
  | immediate {text : List Char} {slot : Slot}
      (hfree : ∀ l ∈ registers, String.ofList (Text.upper text) ≠ l.name)
      (hslot : Slot.Written (Text.upper text) slot) : Names text .imd (some slot)
  | pointer {inner : List Char} {l : Location}
      (hl : (String.ofList (Text.upper (Text.trim inner)), l) ∈ pointers) :
      Names (inBrackets inner) l none
  | memory {inner : List Char} {slot : Slot}
      (hfree : ∀ l, (String.ofList (Text.upper (Text.trim inner)), l) ∉ pointers)
      (hslot : Slot.Written (Text.upper (Text.trim inner)) slot) :
      Names (inBrackets inner) .pimd (some slot)

/-- The mode of an operand with a given mark and word. -/
def modeOf (mark : AccessMode) : Option Slot → AccessMode
  | some (.label _) => .relative
  | _ => mark

/-- The operand that a text without blanks at its ends denotes. -/
inductive Denotes : List Char → Operand → Prop
  | plain {text : List Char} {l : Location} {slot : Option Slot}
      (hplain : text.head? ≠ some '$') (h : Names text l slot) :
      Denotes text ⟨l, modeOf .direct slot, slot⟩
  | dollar {text : List Char} {l : Location} {slot : Option Slot}
      (h : Names (Text.trim text) l slot) :
      Denotes ('$' :: text) ⟨l, modeOf .relative slot, slot⟩

variable {text : List Char} {l : Location} {mode : AccessMode} {o : Operand} {slot : Option Slot}

theorem pointer?_eq_some_iff {name : String} : pointer? name = some l ↔ (name, l) ∈ pointers := by
  unfold pointer? pointers
  split
  · simp [eq_comm]
  · simp [eq_comm]
  · simp [eq_comm]
  next hax hbx hcx =>
    have hax : name ≠ "AX" := hax
    have hbx : name ≠ "BX" := hbx
    have hcx : name ≠ "CX" := hcx
    simp [hax, hbx, hcx]

theorem register?_eq_some_iff {name : String} :
    register? name = some l ↔ l ∈ registers ∧ name = l.name := by
  have hname : ∀ l ∈ registers, register? l.name = some l := by decide
  constructor
  · intro h
    have hfound := List.find?_some (p := fun r : Location => r.name == name) h
    exact ⟨List.mem_of_find?_eq_some h, (beq_iff_eq.mp hfound).symm⟩
  · rintro ⟨hl, rfl⟩
    exact hname l hl

theorem toWord_eq_ok_iff {x : Int} {w : UInt16} :
    Numeral.toWord x = .ok w ↔ (-32768 ≤ x ∧ x ≤ 65535) ∧ w = UInt16.ofInt x := by
  rw [Numeral.toWord]
  split
  next h => simp [h, eq_comm]
  next h => simp [h]

/-- The word of an operand is read as it is written. -/
theorem immediate_eq_ok_iff :
    immediate l mode text = .ok o ↔
      ∃ s, Slot.Written text s ∧ o = ⟨l, modeOf mode (some s), some s⟩ := by
  constructor
  · intro h
    rw [immediate] at h
    split at h
    next => cases h
    next hne =>
      split at h
      next hfirst =>
        obtain ⟨x, hx, h⟩ := bind_eq_ok.mp h
        obtain ⟨w, hw, h⟩ := bind_eq_ok.mp h
        obtain ⟨⟨hlow, hhigh⟩, rfl⟩ := toWord_eq_ok_iff.mp hw
        cases h
        exact ⟨_, .value hfirst hx hlow hhigh, rfl⟩
      next hfirst =>
        split at h
        next hall =>
          cases h
          exact ⟨_, .label (by simpa using hne) (by simpa using hfirst) (List.all_eq_true.mp hall),
            rfl⟩
        next => cases h
  · rintro ⟨s, hs, rfl⟩
    rw [immediate]
    cases hs with
    | value hfirst hx hlow hhigh =>
        have hne : ¬text.isEmpty = true := by
          intro hempty
          rw [List.isEmpty_iff.mp hempty] at hfirst
          cases hfirst
        rw [if_neg hne, if_pos hfirst, hx]
        change (Numeral.toWord _ >>= _) = _
        rw [toWord_eq_ok_iff.mpr ⟨⟨hlow, hhigh⟩, rfl⟩]
        rfl
    | label hne hfirst hall =>
        have hne : ¬text.isEmpty = true := by simpa using hne
        rw [if_neg hne, if_neg (by simp [hfirst]), if_pos (List.all_eq_true.mpr hall)]
        rfl

theorem bracketed?_eq_some_iff {inner : List Char} :
    bracketed? text = some inner ↔ text = inBrackets inner := by
  unfold bracketed? inBrackets
  split
  next cs =>
    rw [List.cons_inj_right]
    split
    next hlast =>
      rw [Option.some_inj]
      obtain ⟨front, rfl⟩ := List.getLast?_eq_some_iff.mp hlast
      rw [List.dropLast_concat, List.append_left_inj]
    next hlast =>
      constructor
      · intro h
        cases h
      · rintro rfl
        exact absurd List.getLast?_concat hlast
  next hcons =>
    constructor
    · intro h
      cases h
    · intro h
      exact absurd h (hcons _)

/-- What is read behind the dollar sign, if there is one. -/
def parseBody (mode : AccessMode) (body : List Char) : Except (Stop Cause) Operand :=
  match bracketed? body with
  | some inner =>
    let inner := Text.upper (Text.trim inner)
    match pointer? (String.ofList inner) with
    | some l => .ok ⟨l, mode, none⟩
    | none => immediate .pimd mode inner
  | none =>
    let body := Text.upper body
    match register? (String.ofList body) with
    | some l => .ok ⟨l, mode, none⟩
    | none => immediate .imd mode body

theorem parse_dollar (text : List Char) :
    parse ('$' :: text) = parseBody .relative (Text.trim text) := rfl

theorem parse_plain (h : text.head? ≠ some '$') : parse text = parseBody .direct text := by
  unfold parse
  split
  next mode body hmark =>
    split at hmark
    next => exact absurd rfl h
    next =>
      cases hmark
      rfl

theorem upper_inBrackets (inner : List Char) :
    Text.upper (inBrackets inner) = '[' :: Text.upper (inner ++ [']']) := rfl

/-- A text in brackets is neither a register nor a word. -/
theorem ne_name_inBrackets {inner : List Char} (hl : l ∈ registers) :
    String.ofList (Text.upper (inBrackets inner)) ≠ l.name := by
  have hfirst : ∀ l ∈ registers, l.name.toList.head? ≠ some '[' := by decide
  intro h
  apply hfirst l hl
  rw [← h, String.toList_ofList, upper_inBrackets]
  rfl

theorem not_written_inBrackets {inner : List Char} {s : Slot} :
    ¬Slot.Written (Text.upper (inBrackets inner)) s := by
  rw [upper_inBrackets]
  intro h
  cases h with
  | value hfirst => cases hfirst
  | label _ _ hall => cases hall '[' (List.mem_cons_self ..)

theorem parseBody_of_names (h : Names text l slot) :
    parseBody mode text = .ok ⟨l, modeOf mode slot, slot⟩ := by
  cases h with
  | register hl hname =>
      have hbare : bracketed? text = none := by
        cases hinner : bracketed? text with
        | none => rfl
        | some inner =>
            rw [bracketed?_eq_some_iff.mp hinner] at hname
            exact absurd hname (ne_name_inBrackets hl)
      rw [parseBody, hbare]
      dsimp only
      rw [register?_eq_some_iff.mpr ⟨hl, hname⟩]
      rfl
  | @immediate _ s hfree hslot =>
      have hbare : bracketed? text = none := by
        cases hinner : bracketed? text with
        | none => rfl
        | some inner =>
            rw [bracketed?_eq_some_iff.mp hinner] at hslot
            exact absurd hslot not_written_inBrackets
      have hnone : register? (String.ofList (Text.upper text)) = none := by
        cases hr : register? (String.ofList (Text.upper text)) with
        | none => rfl
        | some l =>
            obtain ⟨hl, hname⟩ := register?_eq_some_iff.mp hr
            exact absurd hname (hfree l hl)
      rw [parseBody, hbare]
      dsimp only
      rw [hnone]
      exact immediate_eq_ok_iff.mpr ⟨s, hslot, rfl⟩
  | @pointer inner _ hl =>
      rw [parseBody, bracketed?_eq_some_iff.mpr rfl]
      dsimp only
      rw [pointer?_eq_some_iff.mpr hl]
      rfl
  | @memory inner s hfree hslot =>
      have hnone : pointer? (String.ofList (Text.upper (Text.trim inner))) = none := by
        cases hp : pointer? (String.ofList (Text.upper (Text.trim inner))) with
        | none => rfl
        | some l => exact absurd (pointer?_eq_some_iff.mp hp) (hfree l)
      rw [parseBody, bracketed?_eq_some_iff.mpr rfl]
      dsimp only
      rw [hnone]
      exact immediate_eq_ok_iff.mpr ⟨s, hslot, rfl⟩

theorem parseBody_eq_ok_iff :
    parseBody mode text = .ok o ↔
      ∃ l slot, Names text l slot ∧ o = ⟨l, modeOf mode slot, slot⟩ := by
  constructor
  · intro h
    unfold parseBody at h
    split at h
    next inner hinner =>
      obtain rfl := bracketed?_eq_some_iff.mp hinner
      dsimp only at h
      split at h
      next l hl =>
        cases h
        exact ⟨l, none, .pointer (pointer?_eq_some_iff.mp hl), rfl⟩
      next hnone =>
        obtain ⟨s, hs, rfl⟩ := immediate_eq_ok_iff.mp h
        refine ⟨.pimd, some s, .memory (fun l hl => ?_) hs, rfl⟩
        rw [pointer?_eq_some_iff.mpr hl] at hnone
        cases hnone
    next =>
      dsimp only at h
      split at h
      next l hl =>
        obtain ⟨hmem, hname⟩ := register?_eq_some_iff.mp hl
        cases h
        exact ⟨l, none, .register hmem hname, rfl⟩
      next hnone =>
        obtain ⟨s, hs, rfl⟩ := immediate_eq_ok_iff.mp h
        refine ⟨.imd, some s, .immediate (fun l hl hname => ?_) hs, rfl⟩
        rw [register?_eq_some_iff.mpr ⟨hl, hname⟩] at hnone
        cases hnone
  · rintro ⟨l, slot, hnames, rfl⟩
    exact parseBody_of_names hnames

/-- The reader of operands accepts exactly the texts of the grammar. -/
theorem parse_eq_ok_iff : parse text = .ok o ↔ Denotes text o := by
  constructor
  · intro h
    by_cases hmark : text.head? = some '$'
    · obtain ⟨cs, rfl⟩ := List.head?_eq_some_iff.mp hmark
      rw [parse_dollar] at h
      obtain ⟨l, slot, hnames, rfl⟩ := parseBody_eq_ok_iff.mp h
      exact .dollar hnames
    · rw [parse_plain hmark] at h
      obtain ⟨l, slot, hnames, rfl⟩ := parseBody_eq_ok_iff.mp h
      exact .plain hmark hnames
  · intro h
    cases h with
    | plain hplain hnames =>
        rw [parse_plain hplain]
        exact parseBody_of_names hnames
    | dollar hnames =>
        rw [parse_dollar]
        exact parseBody_of_names hnames

theorem Names.isSome_slot (h : Names text l slot) : slot.isSome = l.hasImmediate := by
  have hregisters : ∀ l ∈ registers, l.hasImmediate = false := by decide
  have hpointers : ∀ x ∈ pointers, x.2.hasImmediate = false := by decide
  cases h with
  | register hl _ => rw [hregisters l hl, Option.isSome_none]
  | immediate => rfl
  | pointer hl => rw [hpointers _ hl, Option.isSome_none]
  | memory => rfl

/-- An operand has a word exactly if its location does. -/
theorem Denotes.isSome_slot (h : Denotes text o) : o.slot.isSome = o.location.hasImmediate := by
  cases h with
  | plain _ hnames => exact hnames.isSome_slot
  | dollar hnames => exact hnames.isSome_slot

theorem Denotes.mode_of_label (h : Denotes text o) {name : String}
    (hlabel : o.slot = some (.label name)) : o.mode = .relative := by
  cases h with
  | plain _ hnames =>
      cases hlabel
      rfl
  | dollar hnames =>
      cases hlabel
      rfl

/-! ### Marks -/

/-- The mode that an operand asks for: relative behind a dollar sign. -/
def mark : List Char → AccessMode
  | '$' :: _ => .relative
  | _ => .direct

/-- What stands behind the dollar sign, if there is one. -/
def unmarked : List Char → List Char
  | '$' :: cs => Text.trim cs
  | cs => cs

/-- Whether an operand is in brackets. -/
def isBracketed (text : List Char) : Bool := (bracketed? (unmarked text)).isSome

/-- The text of an operand in capitals, without the dollar sign and the brackets. -/
def bare (text : List Char) : List Char :=
  Text.upper (((bracketed? (unmarked text)).map Text.trim).getD (unmarked text))

/-- The register that an operand names or, in brackets, the pointer through one. -/
def named? (text : List Char) : Option Location :=
  if isBracketed text then
    pointer? (String.ofList (bare text))
  else
    register? (String.ofList (bare text))

/-- The location of an operand with a word of its own. -/
def wordLocation (text : List Char) : Location := if isBracketed text then .pimd else .imd

theorem parse_eq_parseBody (text : List Char) :
    parse text = parseBody (mark text) (unmarked text) := by
  by_cases hdollar : text.head? = some '$'
  · obtain ⟨cs, rfl⟩ := List.head?_eq_some_iff.mp hdollar
    rfl
  · rw [parse_plain hdollar]
    unfold mark unmarked
    split
    · exact absurd rfl hdollar
    · rfl

/-- An operand is what it names, and else it has a word of its own. -/
theorem parse_eq (text : List Char) :
    parse text = ((named? text).map fun l => .ok ⟨l, mark text, none⟩).getD
      (immediate (wordLocation text) (mark text) (bare text)) := by
  rw [parse_eq_parseBody, parseBody]
  unfold named? wordLocation isBracketed bare
  split
  next inner hinner =>
    rw [hinner]
    simp only [Option.isSome_some, if_true, Option.map_some, Option.getD_some]
    split
    next l hl => rw [hl, Option.map_some, Option.getD_some]
    next hnone => rw [hnone, Option.map_none, Option.getD_none]
  next hnone =>
    rw [hnone]
    simp only [Option.isSome_none, Bool.false_eq_true, if_false, Option.map_none, Option.getD_none]
    split
    next l hl => rw [hl, Option.map_some, Option.getD_some]
    next hnone => rw [hnone, Option.map_none, Option.getD_none]

/-- No register is named like a number. -/
theorem named?_of_looksNumeric (h : looksNumeric (bare text) = true) : named? text = none := by
  have hregisters : ∀ l ∈ registers, looksNumeric l.name.toList = false := by decide
  have hpointers : ∀ x ∈ pointers, looksNumeric x.1.toList = false := by decide
  cases hnamed : named? text with
  | none => rfl
  | some l =>
      unfold named? at hnamed
      split at hnamed
      · have hfree := hpointers _ (pointer?_eq_some_iff.mp hnamed)
        rw [String.toList_ofList, h] at hfree
        cases hfree
      · obtain ⟨hl, hname⟩ := register?_eq_some_iff.mp hnamed
        have hfree := hregisters l hl
        rw [← hname, String.toList_ofList, h] at hfree
        cases hfree

/-- What begins like a number is read as one. -/
theorem parse_of_looksNumeric (h : looksNumeric (bare text) = true) :
    parse text = (Numeral.parse (bare text) >>= fun x => Numeral.toWord x >>= fun w =>
      .ok ⟨wordLocation text, mark text, some (.value w)⟩) := by
  have hne : ¬(bare text).isEmpty = true := by
    intro hempty
    rw [List.isEmpty_iff.mp hempty] at h
    cases h
  rw [parse_eq, named?_of_looksNumeric h, Option.map_none, Option.getD_none, immediate,
    if_neg hne, if_pos h]
  rfl

end Operand

/-! ## Instructions -/

namespace Statement

/-- The first word of a text, in capitals. -/
def mnemonic (text : List Char) : String :=
  String.ofList (Text.upper (text.takeWhile (!Text.isBlank ·)))

/-- What follows the first word, cut at the commas. -/
def arguments (text : List Char) : List (List Char) :=
  operands (Text.trim (text.dropWhile (!Text.isBlank ·)))

/-- The operand in a place of an instruction. -/
def operandAt (os : List Operand) : Position → Operand
  | .destination => os.getD 0 Operand.unused
  | .source => os.getD 1 Operand.unused

/-- The instruction with the given operands. -/
def instructionOf (op : Opcode) (os : List Operand) : Instruction where
  opcode := op
  dstMode := (operandAt os .destination).mode
  srcMode := (operandAt os .source).mode
  dst := (operandAt os .destination).location
  src := (operandAt os .source).location

/-- The slots of the words behind its header. -/
def slotsOf (os : List Operand) : List Slot :=
  [Position.destination, .source].filterMap fun p => (operandAt os p).slot

/-- A text spells an instruction: it names the operation and denotes its operands. -/
structure Spells (text : List Char) (op : Opcode) (os : List Operand) : Prop where
  mnemonic : mnemonic text = op.name
  operands : List.Forall₂ Operand.Denotes (arguments text) os
  arity : os.length = op.arity

variable {text : List Char} {op : Opcode} {os : List Operand} {s : Statement}

theorem location_instructionOf (op : Opcode) (os : List Operand) (p : Position) :
    (instructionOf op os).location p = (operandAt os p).location := by
  cases p <;> rfl

theorem mode_instructionOf (op : Opcode) (os : List Operand) (p : Position) :
    (instructionOf op os).mode p = (operandAt os p).mode := by
  cases p <;> rfl

/-- The statement of an operation with its operands. -/
def ofOperands (op : Opcode) (os : List Operand) : Except (Stop Cause) Statement :=
  match (instructionOf op os).header with
  | .ok head => .ok ⟨head, slotsOf os⟩
  | .error e => .error (.fault (.encode e))

theorem instruction_eq (op : Opcode) (texts : List (List Char)) :
    instruction op texts = if texts.length ≠ op.arity then
      .error (.fault (.operandCount op texts.length))
    else
      texts.mapM Operand.parse >>= ofOperands op := by
  unfold instruction
  split <;> rfl

theorem ofOperands_eq_ok_iff :
    ofOperands op os = .ok s ↔
      ∃ head, (instructionOf op os).header = .ok head ∧ s = ⟨head, slotsOf os⟩ := by
  unfold ofOperands
  cases (instructionOf op os).header with
  | ok head => simp [eq_comm]
  | error e => simp

theorem exists_of_instruction {texts : List (List Char)} (h : instruction op texts = .ok s) :
    ∃ os head, texts.length = op.arity ∧ texts.mapM Operand.parse = .ok os ∧
      (instructionOf op os).header = .ok head ∧ s = ⟨head, slotsOf os⟩ := by
  rw [instruction_eq] at h
  split at h
  next => cases h
  next harity =>
    obtain ⟨os, hos, h⟩ := bind_eq_ok.mp h
    obtain ⟨head, hhead, rfl⟩ := ofOperands_eq_ok_iff.mp h
    exact ⟨os, head, not_not.mp harity, hos, hhead, rfl⟩

theorem instruction_eq_ok {texts : List (List Char)} {head : List UInt8}
    (harity : texts.length = op.arity) (hos : texts.mapM Operand.parse = .ok os)
    (hhead : (instructionOf op os).header = .ok head) :
    instruction op texts = .ok ⟨head, slotsOf os⟩ := by
  rw [instruction_eq, if_neg (not_not.mpr harity), hos]
  exact ofOperands_eq_ok_iff.mpr ⟨head, hhead, rfl⟩

theorem parse_of_bytes (hname : mnemonic text = "DB") :
    parse text = bytes (arguments text) := by
  unfold parse
  dsimp only
  split
  next => rfl
  next hwords => exact absurd (hname.symm.trans hwords) (by decide)
  next hbytes _ => exact absurd hname hbytes

theorem parse_of_words (hname : mnemonic text = "DW") :
    parse text = words (arguments text) := by
  unfold parse
  dsimp only
  split
  next hbytes => exact absurd (hname.symm.trans hbytes) (by decide)
  next => rfl
  next _ hwords => exact absurd hname hwords

theorem parse_of_operation (hbytes : mnemonic text ≠ "DB") (hwords : mnemonic text ≠ "DW") :
    parse text = (Opcode.ofName? (mnemonic text)).elim
      (.error (.fault (.unknownMnemonic (mnemonic text))))
      fun op => instruction op (arguments text) := by
  unfold parse
  dsimp only
  split
  next hname => exact absurd hname hbytes
  next hname => exact absurd hname hwords
  next =>
    split
    next op hop =>
      have hop : Opcode.ofName? (mnemonic text) = some op := hop
      rw [hop, Option.elim_some]
      rfl
    next hnone =>
      have hnone : Opcode.ofName? (mnemonic text) = none := hnone
      rw [hnone, Option.elim_none]
      rfl

theorem parse_of_mnemonic (hname : mnemonic text = op.name) :
    parse text = instruction op (arguments text) := by
  obtain ⟨hbytes, hwords⟩ := op.name_ne_data
  rw [← hname] at hbytes hwords
  rw [parse_of_operation hbytes hwords, hname, Opcode.ofName?_name, Option.elim_some]

/-- What is read as a statement and is not data is a text that spells an
instruction. -/
theorem exists_spells_of_parse (h : parse text = .ok s) (hbytes : mnemonic text ≠ "DB")
    (hwords : mnemonic text ≠ "DW") :
    ∃ op os head, Spells text op os ∧ (instructionOf op os).header = .ok head ∧
      s = ⟨head, slotsOf os⟩ := by
  rw [parse_of_operation hbytes hwords] at h
  cases hop : Opcode.ofName? (mnemonic text) with
  | none =>
      rw [hop] at h
      cases h
  | some op =>
      rw [hop] at h
      obtain ⟨os, head, harity, hos, hhead, rfl⟩ := exists_of_instruction h
      refine ⟨op, os, head, ⟨Opcode.eq_name_of_ofName? hop, ?_, ?_⟩, hhead, rfl⟩
      · exact (forall₂_of_mapM_eq_ok hos).imp fun _ _ => Operand.parse_eq_ok_iff.mp
      · rw [length_of_mapM_eq_ok hos, harity]

/-- What a text spells is what is read, so it is unique. -/
theorem Spells.reads (h : Spells text op os) :
    Opcode.ofName? (Statement.mnemonic text) = some op ∧
      (arguments text).mapM Operand.parse = .ok os := by
  rw [h.mnemonic, Opcode.ofName?_name]
  exact ⟨rfl, mapM_eq_ok_of_forall₂ (h.operands.imp fun _ _ => Operand.parse_eq_ok_iff.mpr)⟩

/-- Every place of an instruction holds an operand that is denoted or the unused
one. -/
theorem Spells.operandAt_cases (h : Spells text op os) (p : Position) :
    (∃ t, Operand.Denotes t (operandAt os p)) ∨ operandAt os p = Operand.unused := by
  have hget : ∀ k, (∃ t, Operand.Denotes t (os.getD k Operand.unused)) ∨
      os.getD k Operand.unused = Operand.unused := by
    intro k
    by_cases hk : k < os.length
    · have hk' : k < (arguments text).length := by rwa [h.operands.length_eq]
      have hdenotes := h.operands.get hk' hk
      rw [List.getD_eq_getElem?_getD, List.getElem?_eq_getElem hk]
      exact .inl ⟨_, hdenotes⟩
    · rw [List.getD_eq_getElem?_getD, List.getElem?_eq_none (Nat.le_of_not_lt hk)]
      exact .inr rfl
  cases p with
  | destination => exact hget 0
  | source => exact hget 1

theorem Spells.isSome_slot (h : Spells text op os) (p : Position) :
    (operandAt os p).slot.isSome = (operandAt os p).location.hasImmediate := by
  obtain ⟨t, ht⟩ | hunused := h.operandAt_cases p
  · exact ht.isSome_slot
  · rw [hunused]
    rfl

theorem Spells.mode_of_label (h : Spells text op os) {p : Position} {name : String}
    (hlabel : (operandAt os p).slot = some (.label name)) :
    (operandAt os p).mode = .relative := by
  obtain ⟨t, ht⟩ | hunused := h.operandAt_cases p
  · exact ht.mode_of_label hlabel
  · rw [hunused] at hlabel
    cases hlabel

end Statement
end Assembly
end CoreWar
