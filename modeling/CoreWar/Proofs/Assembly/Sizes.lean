import CoreWar.Proofs.Assembly.Grammar
import CoreWar.Proofs.Assembly.Layout
import CoreWar.Proofs.Text.Lines
import Mathlib.Data.List.TakeWhile

/-!
# How long a program can be

A statement takes at most two bytes for every character of its text: each datum and each operand
is at least one character long, and so is what separates it from the one before.
-/

namespace CoreWar

namespace Text

variable {cs ds : List Char}

/-- The number of bytes of a text in UTF-8. -/
def byteCount : List Char → Nat
  | [] => 0
  | c :: cs => c.utf8Size + byteCount cs

theorem utf8ByteSize_ofList (cs : List Char) : (String.ofList cs).utf8ByteSize = byteCount cs := by
  induction cs with
  | nil => rfl
  | cons c cs ih =>
      have hcons : String.ofList (c :: cs) = String.singleton c ++ String.ofList cs := by simp
      rw [hcons, String.utf8ByteSize_append, String.utf8ByteSize_singleton, ih, byteCount]

theorem byteCount_append (cs ds : List Char) :
    byteCount (cs ++ ds) = byteCount cs + byteCount ds := by
  induction cs with
  | nil => exact (Nat.zero_add _).symm
  | cons c cs ih => rw [List.cons_append, byteCount, byteCount, ih, Nat.add_assoc]

theorem byteCount_le_of_sublist (h : cs.Sublist ds) : byteCount cs ≤ byteCount ds := by
  induction h with
  | slnil => exact Nat.le_refl _
  | cons c _ ih => exact Nat.le_trans ih (Nat.le_add_left _ _)
  | cons_cons c _ ih => exact Nat.add_le_add_left ih _

/-- A character takes at least one byte. -/
theorem length_le_byteCount (cs : List Char) : cs.length ≤ byteCount cs := by
  induction cs with
  | nil => exact Nat.le_refl 0
  | cons c cs ih =>
      have hc := c.utf8Size_pos
      rw [List.length_cons, byteCount]
      omega

end Text

namespace Assembly

open Checks

/-! ## Statements -/

namespace Statement

variable {text : List Char} {s : Statement} {op : Opcode} {os : List Operand}

theorem length_arguments_le (text : List Char) :
    (arguments text).length ≤ (text.dropWhile (!Text.isBlank ·)).length := by
  have hfirst := List.head?_dropWhile_not (!Text.isBlank ·) text
  unfold arguments
  cases hrest : text.dropWhile (!Text.isBlank ·) with
  | nil => exact Nat.le_refl 0
  | cons c cs =>
      -- The blank behind the operation makes room for the operand before the first comma.
      rw [hrest] at hfirst
      rw [Text.trim_cons_of_isBlank (by simpa using hfirst), operands]
      split
      · exact Nat.zero_le _
      · rw [List.length_map]
        refine Nat.le_trans (Text.length_split_le ',' _) ?_
        exact Nat.succ_le_succ (Text.trim_sublist cs).length_le

/-- The operation and the operands share the characters of a statement. -/
theorem length_arguments_add_le (text : List Char) :
    (arguments text).length + (text.takeWhile (!Text.isBlank ·)).length ≤ text.length := by
  have hparts := congrArg List.length
    (List.takeWhile_append_dropWhile (p := (!Text.isBlank ·)) (l := text))
  rw [List.length_append] at hparts
  have hrest := length_arguments_le text
  omega

theorem length_slotsOf_le (os : List Operand) : (slotsOf os).length ≤ os.length := by
  match os with
  | [] => exact Nat.le_refl 0
  | [o] =>
      have hone : slotsOf [o] = [o].filterMap Operand.slot := by
        cases hslot : o.slot <;> simp [slotsOf, operandAt, Operand.unused, hslot]
      rw [hone]
      exact List.length_filterMap_le _ _
  | _ :: _ :: _ => exact Nat.le_trans (List.length_filterMap_le _ _) (Nat.le_add_left 2 _)

/-- The bytes of an instruction fit where two bytes stand for each character. -/
theorem size_instruction_le (hname : mnemonic text = op.name)
    (h : instruction op (arguments text) = .ok s) : s.size ≤ 2 * text.length := by
  obtain ⟨os, head, -, hos, hhead, rfl⟩ := exists_of_instruction h
  obtain ⟨n₁, n₂, -, -, rfl⟩ := Instruction.header_eq_ok_iff.mp hhead
  have hop : ∀ op : Opcode, op.name ≠ "" := by
    intro op
    cases op <;> decide
  have hpos : 0 < (text.takeWhile (!Text.isBlank ·)).length := by
    rw [List.length_pos_iff]
    intro hnil
    apply hop op
    rw [← hname, mnemonic, hnil]
    rfl
  have hslots := length_slotsOf_le os
  have harguments := length_arguments_add_le text
  rw [length_of_mapM_eq_ok hos] at hslots
  change 2 + 2 * (slotsOf os).length ≤ 2 * text.length
  omega

theorem size_le (h : parse text = .ok s) : s.size ≤ 2 * text.length := by
  have harguments := length_arguments_add_le text
  unfold parse at h
  dsimp only at h
  split at h
  · obtain ⟨head, hhead, h⟩ := bind_eq_ok.mp h
    cases h
    change head.length + 0 ≤ _
    have hlength := length_of_mapM_eq_ok hhead
    rw [hlength, ← arguments]
    omega
  · obtain ⟨ws, hws, h⟩ := bind_eq_ok.mp h
    cases h
    change (ws.flatMap Word.bytes).length + 0 ≤ _
    rw [Word.length_flatMap_bytes, length_of_mapM_eq_ok hws, ← arguments]
    omega
  · split at h
    next op hop => exact size_instruction_le (Opcode.eq_name_of_ofName? hop) h
    next => cases h

end Statement

/-! ## Lines -/

/-- What is left of a line without its comment. -/
theorem Line.trim_takeWhile_sublist (text : List Char) :
    (Text.trim (text.takeWhile (· ≠ ';'))).Sublist text :=
  (Text.trim_sublist _).trans (List.takeWhile_sublist _)

theorem Line.body_sublist (text : List Char) : (Line.ofText text).body.Sublist text := by
  have htrim := Line.trim_takeWhile_sublist text
  rw [Line.ofText]
  split
  · have hdrop := (List.dropWhile_sublist (· ≠ ':')).trans htrim
    exact (Text.trim_sublist _).trans ((List.drop_sublist 1 _).trans hdrop)
  · exact htrim

/-- The colon behind a label takes a byte of the line, too. -/
theorem Line.byteCount_label_lt {text label : List Char}
    (h : (Line.ofText text).label = some label) : Text.byteCount label < Text.byteCount text := by
  refine Nat.lt_of_lt_of_le ?_ (Text.byteCount_le_of_sublist (Line.trim_takeWhile_sublist text))
  rw [Line.ofText] at h
  split at h
  next hcolon =>
    cases h
    have hrest : (Text.trim (text.takeWhile (· ≠ ';'))).dropWhile (· ≠ ':') ≠ [] := by
      intro hnil
      have hne := List.dropWhile_eq_nil_iff.mp hnil ':' hcolon
      simp at hne
    have hparts := congrArg Text.byteCount (List.takeWhile_append_dropWhile (p := (· ≠ ':'))
      (l := Text.trim (text.takeWhile (· ≠ ';'))))
    rw [Text.byteCount_append] at hparts
    have hbytes := Text.length_le_byteCount
      ((Text.trim (text.takeWhile (· ≠ ';'))).dropWhile (· ≠ ':'))
    have hpos := List.length_pos_iff.mpr hrest
    omega
  next => cases h

/-- A line takes at most two bytes for every character. -/
theorem Line.size_le (text : List Char) : Line.size text ≤ 2 * text.length := by
  unfold Line.size
  split
  · exact Nat.zero_le _
  · split
    next s hs =>
      have hbody := (Line.body_sublist text).length_le
      exact Nat.le_trans (Statement.size_le hs) (Nat.mul_le_mul_left 2 hbody)
    next => exact Nat.zero_le _

end Assembly
end CoreWar
