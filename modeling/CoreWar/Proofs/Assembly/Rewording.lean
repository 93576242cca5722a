import CoreWar.Proofs.Assembly.NumberTexts
import CoreWar.Proofs.Assembly.Grammar
import CoreWar.Proofs.Assembly.Layout
import CoreWar.Proofs.Text.Capitals
import Mathlib.Data.List.TakeWhile

/-!
# Lines that say the same

Neither the case of its letters nor the blanks around what a line says nor its
comment matter: a source whose lines are reworded in this way assembles to the
same bytes, or it fails on the same line and for the same reason.

Most of the reader takes its texts in capitals, and there the two sources give
the same.  The numbers of data are read as they are written, so the reader of
numbers itself has to take either form; a number that cannot be read is quoted
as it stands, and this text is the only part of the answer in which the two
sources may differ.
-/

namespace CoreWar
namespace Assembly

open Checks Text

/-- A cause with the text of a number in capitals.  The other causes quote the
source in capitals or not at all. -/
def Cause.inCapitals : Cause → Cause
  | .invalidNumber text => .invalidNumber (String.ofList (capitals text.toList))
  | cause => cause

/-- An error with the text of a number in capitals. -/
def Error.inCapitals (e : Error) : Error := { e with cause := e.cause.inCapitals }

/-! ## Numbers in either case -/

namespace Numeral

theorem digit?_toUpper (base : Nat) (c : Char) : digit? base c.toUpper = digit? base c := by
  have hvalue : ∀ d : Char, digit? base d =
      (if 48 ≤ d.toNat ∧ d.toNat ≤ 57 then some (d.toNat - 48)
        else if 97 ≤ d.toNat ∧ d.toNat ≤ 102 then some (d.toNat - 97 + 10)
        else if 65 ≤ d.toNat ∧ d.toNat ≤ 70 then some (d.toNat - 65 + 10)
        else none : Option Nat).filter (· < base) := fun d => rfl
  rcases toUpper_cases c with ⟨hc, -⟩ | ⟨⟨hlow, hhigh⟩, hcapital⟩
  · rw [hc]
  · have hsmall : digit? base c =
        (if c.toNat ≤ 102 then some (c.toNat - 97 + 10) else none).filter (· < base) := by
      rw [hvalue, if_neg (by omega)]
      by_cases h : c.toNat ≤ 102
      · rw [if_pos ⟨hlow, h⟩, if_pos h]
      · rw [if_neg (fun h' => h h'.2), if_neg (by omega), if_neg h]
    rw [hsmall, hvalue, hcapital, if_neg (by omega), if_neg (by omega)]
    by_cases h : c.toNat ≤ 102
    · rw [if_pos (by omega), if_pos h, Nat.sub_sub]
    · rw [if_neg (by omega), if_neg h]

theorem natural?_capitals (base : Nat) (cs : List Char) :
    natural? base (capitals cs) = natural? base cs := by
  unfold natural?
  rw [isEmpty_capitals, capitals, List.foldlM_map]
  simp only [digit?_toUpper]

theorem signed?_capitals (base : Nat) (cs : List Char) :
    signed? base (capitals cs) = signed? base cs := by
  by_cases hminus : cs.head? = some '-'
  · obtain ⟨ds, rfl⟩ := List.head?_eq_some_iff.mp hminus
    rw [capitals_cons, toUpper_eq_self (by decide)]
    simp only [signed?, natural?_capitals]
  · by_cases hplus : cs.head? = some '+'
    · obtain ⟨ds, rfl⟩ := List.head?_eq_some_iff.mp hplus
      rw [capitals_cons, toUpper_eq_self (by decide)]
      simp only [signed?, natural?_capitals]
    · rw [signed?_of_head?_ne hminus hplus, signed?_of_head?_ne, natural?_capitals]
      · rwa [Ne, head?_capitals_eq_some (by decide)]
      · rwa [Ne, head?_capitals_eq_some (by decide)]

/-- The mark of the base is in order in either case. -/
theorem based?_eq (cs : List Char) :
    based? cs =
      if capitals (cs.take 2) = ['0', 'X'] then signed? 16 (cs.drop 2) else signed? 10 cs := by
  unfold based?
  split
  next cs => rfl
  next cs => rfl
  next hsmall hcapital =>
    rw [if_neg]
    intro hmark
    match cs with
    | [] | [_] => simp at hmark
    | c :: d :: rest =>
        obtain ⟨hc, hd⟩ : c.toUpper = '0' ∧ d.toUpper = 'X' := by simpa using hmark
        obtain rfl := (toUpper_eq_iff (by decide)).mp hc
        rcases toUpper_cases d with ⟨hsame, -⟩ | ⟨-, hshift⟩
        · rw [hsame] at hd
          exact hcapital rest (by rw [hd])
        · have hcode : 'X'.toNat = d.toNat - 32 := hd ▸ hshift
          have hd : d = 'x' := Char.toNat_inj.mp (by simp at hcode ⊢; omega)
          exact hsmall rest (by rw [hd])

theorem based?_capitals (cs : List Char) : based? (capitals cs) = based? cs := by
  rw [based?_eq, based?_eq, take_capitals, drop_capitals, capitals_capitals, signed?_capitals,
    signed?_capitals]

/-- A number is the same in capitals, or its text is quoted in capitals. -/
theorem parse_capitals (text : List Char) :
    (parse (capitals text)).mapError (Stop.map Cause.inCapitals) =
      (parse text).mapError (Stop.map Cause.inCapitals) := by
  have helim : ∀ (value? : Option Int) (cs : List Char) (f : Int → Except (Stop Cause) Int),
      (value?.elim (invalid (capitals cs)) f).mapError (Stop.map Cause.inCapitals) =
        (value?.elim (invalid cs) f).mapError (Stop.map Cause.inCapitals) := by
    intro value? cs f
    cases value? with
    | some x => rfl
    | none =>
        simp only [Option.elim_none, invalid, Except.mapError, Stop.map, Cause.inCapitals,
          String.toList_ofList, capitals_capitals]
  rw [parse, parse, trim_capitals]
  by_cases hminus : (trim text).head? = some '-'
  · obtain ⟨cs, hcs⟩ := List.head?_eq_some_iff.mp hminus
    have hcapitals : capitals ('-' :: cs) = '-' :: capitals cs := rfl
    have hquote := helim (based? cs) ('-' :: cs) negate
    rw [hcapitals] at hquote
    rw [hcs, hcapitals, parseTrimmed, parseTrimmed, based?_capitals]
    exact hquote
  · have hcapitals : (capitals (trim text)).head? ≠ some '-' := by
      rwa [Ne, head?_capitals_eq_some (by decide)]
    rw [parseTrimmed_of_head?_ne hminus, parseTrimmed_of_head?_ne hcapitals, based?_capitals]
    exact helim _ _ _

end Numeral

/-! ## Operands and statements in either case -/

namespace Operand

theorem mark_eq (text : List Char) :
    mark text = if text.head? = some '$' then .relative else .direct := by
  unfold mark
  split
  next => rfl
  next hplain => rw [if_neg (head?_ne_of_forall_ne_cons hplain)]

theorem unmarked_eq (text : List Char) :
    unmarked text = if text.head? = some '$' then trim text.tail else text := by
  unfold unmarked
  split
  next => rfl
  next hplain => rw [if_neg (head?_ne_of_forall_ne_cons hplain)]

theorem bracketed?_eq (text : List Char) :
    bracketed? text =
      if text.head? = some '[' ∧ text.tail.getLast? = some ']' then some text.tail.dropLast
      else none := by
  unfold bracketed?
  split
  next => simp
  next hbare => rw [if_neg fun h => head?_ne_of_forall_ne_cons hbare h.1]

theorem mark_capitals (text : List Char) : mark (capitals text) = mark text := by
  simp only [mark_eq, head?_capitals_eq_some (show '$'.isAlpha = false by decide)]

theorem unmarked_capitals (text : List Char) :
    unmarked (capitals text) = capitals (unmarked text) := by
  simp only [unmarked_eq, head?_capitals_eq_some (show '$'.isAlpha = false by decide),
    tail_capitals, trim_capitals]
  split <;> rfl

theorem bracketed?_capitals (text : List Char) :
    bracketed? (capitals text) = (bracketed? text).map capitals := by
  simp only [bracketed?_eq, head?_capitals_eq_some (show '['.isAlpha = false by decide),
    tail_capitals, getLast?_capitals_eq_some (show ']'.isAlpha = false by decide)]
  split
  · rw [Option.map_some, capitals, capitals, List.map_dropLast]
  · rfl

theorem isBracketed_capitals (text : List Char) :
    isBracketed (capitals text) = isBracketed text := by
  rw [isBracketed, isBracketed, unmarked_capitals, bracketed?_capitals, Option.isSome_map]

theorem bare_capitals (text : List Char) : bare (capitals text) = bare text := by
  unfold bare
  rw [unmarked_capitals, bracketed?_capitals]
  cases bracketed? (unmarked text) with
  | none => exact upper_capitals _
  | some inner =>
      simp only [Option.map_some, Option.getD_some, trim_capitals]
      exact upper_capitals _

/-- An operand is the same in capitals. -/
theorem parse_capitals (text : List Char) : parse (capitals text) = parse text := by
  simp only [parse_eq, named?, wordLocation, mark_capitals, isBracketed_capitals, bare_capitals]

end Operand

namespace Statement

theorem operands_capitals (rest : List Char) :
    operands (capitals rest) = (operands rest).map capitals := by
  unfold operands
  rw [isEmpty_capitals]
  split
  · rfl
  · rw [split_capitals (by decide), List.map_map, List.map_map]
    exact List.map_congr_left fun text _ => trim_capitals text

theorem instruction_capitals (op : Opcode) (texts : List (List Char)) :
    instruction op (texts.map capitals) = instruction op texts := by
  rw [instruction_eq, instruction_eq, List.length_map, List.mapM_map, Function.comp_def]
  simp only [Operand.parse_capitals]

/-- Data are the same in capitals, apart from a number that is quoted. -/
theorem mapM_parse_capitals {α : Type} (item : Int → Except (Stop Cause) α)
    (texts : List (List Char)) :
    ((texts.map capitals).mapM fun t => Numeral.parse t >>= item).mapError
        (Stop.map Cause.inCapitals) =
      (texts.mapM fun t => Numeral.parse t >>= item).mapError (Stop.map Cause.inCapitals) := by
  rw [List.mapM_map, mapError_mapM, mapError_mapM]
  simp only [Function.comp_def, mapError_bind, Numeral.parse_capitals]

theorem mnemonic_capitals (text : List Char) : mnemonic (capitals text) = mnemonic text := by
  rw [mnemonic, mnemonic, takeWhile_capitals (fun c => by rw [isBlank_toUpper]), upper_capitals]

theorem arguments_capitals (text : List Char) :
    arguments (capitals text) = (arguments text).map capitals := by
  rw [arguments, arguments, dropWhile_capitals (fun c => by rw [isBlank_toUpper]), trim_capitals,
    operands_capitals]

theorem bytes_capitals (texts : List (List Char)) :
    (bytes (texts.map capitals)).mapError (Stop.map Cause.inCapitals) =
      (bytes texts).mapError (Stop.map Cause.inCapitals) := by
  unfold bytes
  rw [mapError_bind, mapError_bind]
  congr 1
  exact mapM_parse_capitals Numeral.toByte texts

theorem words_capitals (texts : List (List Char)) :
    (words (texts.map capitals)).mapError (Stop.map Cause.inCapitals) =
      (words texts).mapError (Stop.map Cause.inCapitals) := by
  unfold words
  rw [mapError_bind, mapError_bind]
  congr 1
  exact mapM_parse_capitals Numeral.toWord texts

/-- A statement is the same in capitals, apart from a number that is quoted. -/
theorem parse_capitals (text : List Char) :
    (parse (capitals text)).mapError (Stop.map Cause.inCapitals) =
      (parse text).mapError (Stop.map Cause.inCapitals) := by
  have hname := mnemonic_capitals text
  by_cases hbytes : mnemonic text = "DB"
  · rw [parse_of_bytes hbytes, parse_of_bytes (hname.trans hbytes), arguments_capitals]
    exact bytes_capitals _
  · by_cases hwords : mnemonic text = "DW"
    · rw [parse_of_words hwords, parse_of_words (hname.trans hwords), arguments_capitals]
      exact words_capitals _
    · rw [parse_of_operation hbytes hwords, parse_of_operation (hname ▸ hbytes) (hname ▸ hwords),
        hname, arguments_capitals]
      simp only [instruction_capitals]

end Statement

/-! ## Lines -/

namespace Line

/-- What is read of a line: the text before a semicolon, without blanks at its ends. -/
def code (text : List Char) : List Char := trim (text.takeWhile (· ≠ ';'))

/-- A comment begins with a semicolon; there need not be one. -/
def IsComment (text : List Char) : Prop := ∀ c ∈ text.head?, c = ';'

/-- A line consists of a text, blanks around it, and a comment. -/
inductive Wraps (body : List Char) : List Char → Prop
  | intro {before after comment : List Char} (hbefore : ∀ c ∈ before, isBlank c = true)
      (hafter : ∀ c ∈ after, isBlank c = true) (hcomment : IsComment comment) :
      Wraps body (before ++ body ++ after ++ comment)

/-- Two lines differ only in the case of ASCII letters, in the blanks around what
they say, and in their comments. -/
def Reworded (line line' : List Char) : Prop :=
  ∃ body body', capitals body = capitals body' ∧ Wraps body line ∧ Wraps body' line'

variable {line line' body : List Char}

theorem ne_semicolon_of_isBlank {c : Char} (h : isBlank c = true) : decide (c ≠ ';') = true := by
  rw [decide_eq_true_eq]
  rintro rfl
  cases h

/-- Neither the blanks around a text nor a comment behind it are read. -/
theorem Wraps.code_eq (h : Wraps body line) : code line = code body := by
  cases h with
  | @intro before after comment hbefore hafter hcomment =>
      rw [code, code, List.append_assoc, List.append_assoc,
        List.takeWhile_append_of_pos fun c hc => ne_semicolon_of_isBlank (hbefore c hc),
        trim_isBlank_append hbefore]
      by_cases hinner : ∀ c ∈ body, decide (c ≠ ';') = true
      · have hcut : (after ++ comment).takeWhile (· ≠ ';') = after :=
          (takeWhile_dropWhile_append (fun c hc => ne_semicolon_of_isBlank (hafter c hc))
            fun c hc => by simp [hcomment c hc]).1
        rw [List.takeWhile_append_of_pos hinner, hcut, List.takeWhile_eq_self_iff.mpr hinner,
          trim_append_of_isBlank hafter]
      · -- The body has a comment of its own, so what follows it is not reached.
        rw [List.takeWhile_append, if_neg]
        intro hlength
        exact hinner (List.takeWhile_eq_self_iff.mp
          ((List.takeWhile_sublist _).eq_of_length hlength))

/-- Every line wraps what is read of it. -/
theorem wraps_code (line : List Char) : Wraps (code line) line := by
  obtain ⟨before, after, hbefore, hafter, hline⟩ := exists_blanks_trim (line.takeWhile (· ≠ ';'))
  have hcomment : IsComment (line.dropWhile (· ≠ ';')) := by
    intro c hc
    have hcut := List.head?_dropWhile_not (· ≠ ';') line
    rw [hc] at hcut
    simpa using hcut
  have hwraps : Wraps (code line)
      (before ++ code line ++ after ++ line.dropWhile (· ≠ ';')) := .intro hbefore hafter hcomment
  rw [code, ← hline, List.takeWhile_append_dropWhile] at hwraps
  exact hwraps

theorem code_capitals (line : List Char) : code (capitals line) = capitals (code line) := by
  rw [code, code, takeWhile_ne_capitals (by decide), trim_capitals]

/-- Lines are reworded exactly if what is read of them is the same in capitals. -/
theorem reworded_iff : Reworded line line' ↔ capitals (code line) = capitals (code line') := by
  constructor
  · rintro ⟨body, body', hcapitals, hline, hline'⟩
    rw [hline.code_eq, hline'.code_eq, ← code_capitals, hcapitals, code_capitals]
  · intro h
    exact ⟨code line, code line', h, wraps_code line, wraps_code line'⟩

theorem ofText_eq (line : List Char) :
    ofText line = if ':' ∈ code line then
      ⟨some ((code line).takeWhile (· ≠ ':')), trim (((code line).dropWhile (· ≠ ':')).drop 1)⟩
    else ⟨none, code line⟩ := rfl

theorem ofText_capitals (line : List Char) :
    ofText (capitals line) = ⟨(ofText line).label.map capitals, capitals (ofText line).body⟩ := by
  have hcolon : ':'.isAlpha = false := by decide
  rw [ofText_eq, ofText_eq, code_capitals]
  simp only [mem_capitals hcolon]
  split
  · simp only [takeWhile_ne_capitals hcolon, dropWhile_ne_capitals hcolon, drop_capitals,
      trim_capitals, Option.map_some]
  · rfl

theorem labelName_capitals (label : List Char) :
    labelName (capitals label) = labelName label := by
  rw [labelName, labelName, trim_capitals, upper_capitals]

end Line

/-! ## Layouts -/

namespace Layout

variable {l : Layout} {line line' : List Char} {lines lines' : List (List Char)} {index : Nat}

theorem addLabel_capitals (l : Layout) (label : Option (List Char)) :
    l.addLabel (label.map capitals) = l.addLabel label := by
  cases label with
  | none => rfl
  | some label => simp only [addLabel, Option.map_some, Line.labelName_capitals]

theorem addBody_capitals (l : Layout) (index : Nat) (body : List Char) :
    (l.addBody index (capitals body)).mapError (Stop.map Cause.inCapitals) =
      (l.addBody index body).mapError (Stop.map Cause.inCapitals) := by
  unfold addBody
  rw [isEmpty_capitals]
  split
  · rfl
  · rw [mapError_bind, mapError_bind, Statement.parse_capitals]

theorem addLine_capitals (l : Layout) (index : Nat) (line : List Char) :
    (l.addLine index (capitals line)).mapError (Stop.map Cause.inCapitals) =
      (l.addLine index line).mapError (Stop.map Cause.inCapitals) := by
  rw [addLine_eq, addLine_eq, Line.ofText_capitals, addLabel_capitals, mapError_bind,
    mapError_bind]
  simp only [addBody_capitals]

/-- A line does to a layout what a rewording of it does. -/
theorem addLine_of_reworded (h : Line.Reworded line line') :
    (l.addLine index line).mapError (Stop.map Cause.inCapitals) =
      (l.addLine index line').mapError (Stop.map Cause.inCapitals) := by
  have hcode : Line.code (capitals line) = Line.code (capitals line') := by
    rw [Line.code_capitals, Line.code_capitals, Line.reworded_iff.mp h]
  have hparts : Line.ofText (capitals line) = Line.ofText (capitals line') := by
    rw [Line.ofText_eq, Line.ofText_eq, hcode]
  rw [← addLine_capitals, ← addLine_capitals l index line', addLine_eq, addLine_eq, hparts]

/-- The lines of both sources build up the same layout, until two of them fail alike. -/
theorem addLines_of_reworded (h : List.Forall₂ Line.Reworded lines lines') :
    (l.addLines (lines.zipIdx index)).mapError (Stop.map Error.inCapitals) =
      (l.addLines (lines'.zipIdx index)).mapError (Stop.map Error.inCapitals) := by
  induction h generalizing l index with
  | nil => rfl
  | @cons line line' lines lines' hline _ ih =>
      have hnumber : ∀ x : Except (Stop Cause) Layout,
          (x.mapError (Stop.map (Error.mk index))).mapError (Stop.map Error.inCapitals) =
            (x.mapError (Stop.map Cause.inCapitals)).mapError (Stop.map (Error.mk index)) := by
        rintro (stop | l)
        · cases stop <;> rfl
        · rfl
      rw [List.zipIdx_cons, List.zipIdx_cons, addLines, addLines, List.foldlM_cons,
        List.foldlM_cons, mapError_bind, mapError_bind]
      change (((l.addLine index line).mapError (Stop.map (Error.mk index))).mapError
          (Stop.map Error.inCapitals) >>= _) =
        ((l.addLine index line').mapError (Stop.map (Error.mk index))).mapError
          (Stop.map Error.inCapitals) >>= _
      rw [hnumber, hnumber, addLine_of_reworded hline]
      congr 1
      funext l₁
      exact ih

end Layout

/-- Sources whose lines differ only in the case of ASCII letters, in blanks at their ends and in
their comments assemble to the same bytes, or they fail on the same line and for the same reason,
up to the case in which a number is quoted. -/
theorem assemble_of_reworded {source source' : String}
    (h : List.Forall₂ Line.Reworded (split '\n' source.toList) (split '\n' source'.toList)) :
    (assemble source).mapError (Stop.map Error.inCapitals) =
      (assemble source').mapError (Stop.map Error.inCapitals) := by
  rw [assemble, assemble, ofText, ofText, mapError_bind, mapError_bind,
    Layout.addLines_of_reworded h]

/-- A program of three lines, and the same with letters in the other case, other blanks and other
comments: in a label and a reference to it, in operations and registers, and in numbers. -/
theorem assemble_of_reworded_three :
    List.Forall₂ Line.Reworded
        (split '\n' "Loop: add ax, 0x1f\n\tDB 0xff,-1 ; data\njmp loop".toList)
        (split '\n' "  lOOP: ADD Ax, 0X1F ; count\ndb 0XfF,-1\t\nJMP LOOP;again".toList) ∧
      (assemble "Loop: add ax, 0x1f\n\tDB 0xff,-1 ; data\njmp loop").mapError
          (Stop.map Error.inCapitals) =
        (assemble "  lOOP: ADD Ax, 0X1F ; count\ndb 0XfF,-1\t\nJMP LOOP;again").mapError
          (Stop.map Error.inCapitals) := by
  have hreworded : List.Forall₂ Line.Reworded
      (split '\n' "Loop: add ax, 0x1f\n\tDB 0xff,-1 ; data\njmp loop".toList)
      (split '\n' "  lOOP: ADD Ax, 0X1F ; count\ndb 0XfF,-1\t\nJMP LOOP;again".toList) := by
    refine .cons (Line.reworded_iff.mpr ?_) (.cons (Line.reworded_iff.mpr ?_)
      (.cons (Line.reworded_iff.mpr ?_) .nil))
    · decide
    · decide
    · decide
  exact ⟨hreworded, assemble_of_reworded hreworded⟩

/-- A number that cannot be read is quoted as it is written. -/
example : assemble "db 1,oxf ; data" = .error (.fault ⟨1, .invalidNumber "oxf"⟩) ∧
    assemble " DB 1,OXF" = .error (.fault ⟨1, .invalidNumber "OXF"⟩) := ⟨rfl, rfl⟩

end Assembly
end CoreWar
