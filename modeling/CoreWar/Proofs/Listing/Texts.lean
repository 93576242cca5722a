import CoreWar.Listing
import CoreWar.Proofs.Assembly.Lines
import CoreWar.Proofs.Assembly.Numerals

/-!
# The texts of a listing

No text of a listing holds a semicolon, a colon or the end of a line, so each is
a line of its own without label or comment.  The text of bytes as data assembles
to the bytes.
-/

namespace CoreWar
namespace Listing

/-- A text without comment, label and end of line. -/
def IsPlain (cs : List Char) : Prop := ∀ c ∈ cs, c ≠ ';' ∧ c ≠ ':' ∧ c ≠ '\n'

instance (cs : List Char) : Decidable (IsPlain cs) :=
  List.decidableBAll (fun c => c ≠ ';' ∧ c ≠ ':' ∧ c ≠ '\n') cs

namespace IsPlain

variable {cs ds : List Char}

theorem append (hcs : IsPlain cs) (hds : IsPlain ds) : IsPlain (cs ++ ds) :=
  List.forall_mem_append.mpr ⟨hcs, hds⟩

theorem join {s : List Char} {pieces : List (List Char)} (hs : IsPlain s)
    (h : ∀ p ∈ pieces, IsPlain p) : IsPlain (Text.join s pieces) := by
  intro c hc
  obtain hc | ⟨p, hp, hc⟩ := Text.mem_join hc
  · exact hs c hc
  · exact h p hp c hc

theorem of_isDigit (h : ∀ c ∈ cs, c.isDigit = true) : IsPlain cs := fun c hc =>
  ⟨Assembly.Numeral.ne_of_isDigit (h c hc) (by decide),
    Assembly.Numeral.ne_of_isDigit (h c hc) (by decide),
    Assembly.Numeral.ne_of_isDigit (h c hc) (by decide)⟩

end IsPlain

/-- A text without blanks and commas, which is read as one piece. -/
def IsSolid (cs : List Char) : Prop := ∀ c ∈ cs, Text.isBlank c = false ∧ c ≠ ','

instance (cs : List Char) : Decidable (IsSolid cs) :=
  List.decidableBAll (fun c => Text.isBlank c = false ∧ c ≠ ',') cs

namespace IsSolid

variable {cs ds : List Char}

theorem append (hcs : IsSolid cs) (hds : IsSolid ds) : IsSolid (cs ++ ds) :=
  List.forall_mem_append.mpr ⟨hcs, hds⟩

theorem trim_eq (h : IsSolid cs) : Text.trim cs = cs :=
  Text.trim_of_forall fun c hc => (h c hc).1

theorem of_isDigit (h : ∀ c ∈ cs, c.isDigit = true) : IsSolid cs := fun c hc =>
  ⟨Assembly.Numeral.isBlank_of_isDigit (h c hc),
    Assembly.Numeral.ne_of_isDigit (h c hc) (by decide)⟩

end IsSolid

/-! ## Pieces -/

section Pieces

variable {word : List Char} {pieces : List (List Char)}

theorem join_ne_nil {s : List Char} (hne : pieces ≠ []) (h : ∀ p ∈ pieces, p ≠ []) :
    Text.join s pieces ≠ [] := by
  obtain ⟨-, -, c, -, hlast⟩ := Text.getLast?_join s hne h
  rintro hnil
  rw [hnil] at hlast
  cases hlast

/-- Pieces that are printed one after the other are read as these operands. -/
theorem operands_join (hne : pieces ≠ []) (h : ∀ p ∈ pieces, p ≠ [] ∧ IsSolid p) :
    Assembly.Statement.operands (Text.join [',', ' '] pieces) = pieces := by
  have htrim : pieces.map Text.trim = pieces :=
    (List.map_congr_left fun p hp => (h p hp).2.trim_eq).trans (List.map_id _)
  have hjoin : ¬(Text.join [',', ' '] pieces).isEmpty = true := by
    rw [List.isEmpty_iff]
    exact join_ne_nil hne fun p hp => (h p hp).1
  rw [Assembly.Statement.operands, if_neg hjoin,
    Text.map_trim_split_join hne (by decide) fun p hp hc => ((h p hp).2 _ hc).2 rfl, htrim]

theorem trim_join_of_isSolid (h : ∀ p ∈ pieces, p ≠ [] ∧ IsSolid p) :
    Text.trim (Text.join [',', ' '] pieces) = Text.join [',', ' '] pieces :=
  Text.trim_join _ fun p hp => ⟨(h p hp).1, fun c hc => ((h p hp).2 c hc).1⟩

/-- A word and the pieces behind it have no blanks at their ends. -/
theorem trim_word_join (hword : word ≠ []) (hsolid : IsSolid word) (hne : pieces ≠ [])
    (h : ∀ p ∈ pieces, p ≠ [] ∧ IsSolid p) :
    Text.trim (word ++ ' ' :: Text.join [',', ' '] pieces)
      = word ++ ' ' :: Text.join [',', ' '] pieces := by
  obtain ⟨p, hp, d, hd, hlast⟩ := Text.getLast?_join [',', ' '] hne fun p hp => (h p hp).1
  apply Text.trim_eq_self
  · intro c hc
    rw [List.head?_append_of_ne_nil _ hword] at hc
    exact (hsolid c (List.mem_of_mem_head? hc)).1
  · intro c hc
    have hend : (word ++ ' ' :: Text.join [',', ' '] pieces).getLast? = some d := by
      rw [List.append_cons, List.getLast?_append, hlast, Option.some_or]
    rw [hend] at hc
    cases hc
    exact ((h p hp).2 d hd).1

end Pieces

/-! ## Hexadecimal digits -/

theorem isPlain_hexDigit {n : Nat} (h : n < 16) : IsPlain [Text.hexDigit n] := by
  have hall : ∀ k : Fin 16, IsPlain [Text.hexDigit k.val] := by decide
  exact hall ⟨n, h⟩

theorem isPlain_hex (width n : Nat) : IsPlain (Text.hex width n) := by
  fun_induction Text.hex width n with
  | case1 width n hn =>
      refine IsPlain.append ?_ (isPlain_hexDigit hn)
      intro c hc
      obtain ⟨-, rfl⟩ := List.mem_replicate.mp hc
      decide
  | case2 width n hn ih => exact ih.append (isPlain_hexDigit (Nat.mod_lt n (by decide)))

theorem isPlain_hexBytes (bytes : List UInt8) : IsPlain (Text.hexBytes bytes) := by
  refine IsPlain.join (by decide) fun p hp => ?_
  obtain ⟨b, -, rfl⟩ := List.mem_map.mp hp
  have hlt := b.toNat_lt
  exact IsPlain.append (isPlain_hexDigit (by omega)) (isPlain_hexDigit (by omega))

theorem length_hex_of_lt {n : Nat} (h : n < 16) (width : Nat) :
    (Text.hex (width + 1) n).length = width + 1 := by
  rw [Text.hex, dif_pos h]
  simp

theorem length_hex_succ {width n : Nat} (h : (Text.hex width (n / 16)).length = width)
    (hn : 16 ≤ n) : (Text.hex (width + 1) n).length = width + 1 := by
  rw [Text.hex, dif_neg (by omega), List.length_append]
  exact congrArg (· + 1) h

/-- An address below 65536 has four digits. -/
theorem length_hex_four {n : Nat} (h : n < 65536) : (Text.hex 4 n).length = 4 := by
  by_cases h1 : n < 16
  · exact length_hex_of_lt h1 3
  refine length_hex_succ ?_ (by omega)
  by_cases h2 : n / 16 < 16
  · exact length_hex_of_lt h2 2
  refine length_hex_succ ?_ (by omega)
  by_cases h3 : n / 16 / 16 < 16
  · exact length_hex_of_lt h3 1
  exact length_hex_succ (length_hex_of_lt (by omega) 0) (by omega)

/-! ## Instructions -/

theorem isPlain_signedWord (w : UInt16) : IsPlain (signedWord w) := by
  have hnat (n : Nat) : IsPlain (Nat.toDigits 10 n) :=
    .of_isDigit fun c => Assembly.Numeral.isDigit_of_mem_toDigits
  rw [signedWord, Int.toString_eq_repr, Int.repr_eq_if]
  split
  · rw [Nat.toList_repr]
    exact hnat _
  · rw [String.toList_append, Nat.toList_repr]
    exact IsPlain.append (by decide) (hnat _)

theorem isPlain_wordText (mode : AccessMode) (w : UInt16) : IsPlain (wordText mode w) := by
  cases mode with
  | direct => exact IsPlain.append (by decide) (isPlain_hex 4 _)
  | relative => exact isPlain_signedWord w

theorem isPlain_modeMark (mode : AccessMode) : IsPlain (modeMark mode) := by
  cases mode <;> decide

theorem isPlain_name (l : Location) : IsPlain l.name.toList := by
  cases l <;> decide

theorem isPlain_operandText (l : Location) (mode : AccessMode) (w : UInt16) :
    IsPlain (operandText l mode w) := by
  have hmark := isPlain_modeMark mode
  unfold operandText
  split
  · exact hmark.append (by decide)
  · exact hmark.append (by decide)
  · exact hmark.append (by decide)
  · exact hmark.append (isPlain_wordText mode w)
  · exact ((hmark.append (by decide)).append (isPlain_wordText mode w)).append (by decide)
  · decide
  · exact hmark.append (isPlain_name _)

theorem isPlain_instructionText (i : Instruction) (words : List UInt16) :
    IsPlain (instructionText i words) := by
  have hname : IsPlain i.opcode.name.toList := by
    cases i.opcode <;> decide
  unfold instructionText
  extract_lets dstWord srcWord operands
  split
  · exact hname
  · refine (hname.append (by decide)).append (.join (by decide) ?_)
    intro p hp
    have hp := List.mem_of_mem_take hp
    simp only [List.mem_cons, List.not_mem_nil, or_false] at hp
    obtain rfl | rfl := hp
    · exact isPlain_operandText _ _ _
    · exact isPlain_operandText _ _ _

/-! ## Data -/

/-- The digits of the bytes of a line of data. -/
def byteTexts (bytes : List UInt8) : List (List Char) := bytes.map fun b => Nat.toDigits 10 b.toNat

theorem dataText_eq (bytes : List UInt8) :
    dataText bytes = 'D' :: 'B' :: ' ' :: Text.join [',', ' '] (byteTexts bytes) := by
  have hdigits (b : UInt8) : (toString b.toNat).toList = Nat.toDigits 10 b.toNat :=
    Nat.toList_repr
  simp only [dataText, hdigits, byteTexts]
  rfl

theorem isDigit_of_mem_byteTexts {bytes : List UInt8} {p : List Char} (hp : p ∈ byteTexts bytes) :
    ∀ c ∈ p, c.isDigit = true := by
  obtain ⟨b, -, rfl⟩ := List.mem_map.mp hp
  exact fun c => Assembly.Numeral.isDigit_of_mem_toDigits

theorem isPlain_dataText (bytes : List UInt8) : IsPlain (dataText bytes) := by
  rw [dataText_eq]
  have htexts : IsPlain (Text.join [',', ' '] (byteTexts bytes)) :=
    .join (by decide) fun p hp => .of_isDigit (isDigit_of_mem_byteTexts hp)
  exact IsPlain.append (by decide : IsPlain ['D', 'B', ' ']) htexts

/-- A plain text is a line without label and comment. -/
theorem IsPlain.ofText_eq {cs : List Char} (h : IsPlain cs) :
    Assembly.Line.ofText cs = ⟨none, Text.trim cs⟩ := by
  have hlabel : ':' ∉ cs := fun hc => (h _ hc).2.1 rfl
  have hall : cs.takeWhile (· ≠ ';') = cs := by
    rw [← List.append_nil cs, List.takeWhile_append_of_pos fun c hc => decide_eq_true (h c hc).1,
      List.takeWhile_nil]
  rw [Assembly.label_ofText_eq_none hlabel, hall]

theorem isSolid_of_mem_byteTexts {bytes : List UInt8} {p : List Char} (hp : p ∈ byteTexts bytes) :
    p ≠ [] ∧ IsSolid p := by
  refine ⟨?_, .of_isDigit (isDigit_of_mem_byteTexts hp)⟩
  obtain ⟨b, -, rfl⟩ := List.mem_map.mp hp
  exact Nat.toDigits_ne_nil

theorem byteTexts_ne_nil {bytes : List UInt8} (h : bytes ≠ []) : byteTexts bytes ≠ [] := by
  simpa [byteTexts] using h

/-- The text of bytes as data is a statement that stands for them. -/
theorem parse_dataText {bytes : List UInt8} (h : bytes ≠ []) :
    Assembly.Statement.parse (dataText bytes) = .ok ⟨bytes, []⟩ := by
  have hpieces (p : List Char) (hp : p ∈ byteTexts bytes) := isSolid_of_mem_byteTexts hp
  have hrest : Text.trim (' ' :: Text.join [',', ' '] (byteTexts bytes))
      = Text.join [',', ' '] (byteTexts bytes) := by
    rw [Text.trim_cons_of_isBlank (by decide), trim_join_of_isSolid hpieces]
  have hread : (byteTexts bytes).mapM
      (fun t => do Assembly.Numeral.toByte (← Assembly.Numeral.parse t)) = .ok bytes :=
    Checks.mapM_map_eq_ok Assembly.Numeral.toByte_parse_toDigits bytes
  rw [dataText_eq]
  change Assembly.Statement.bytes (Assembly.Statement.operands
    (Text.trim (' ' :: Text.join [',', ' '] (byteTexts bytes)))) = _
  rw [hrest, operands_join (byteTexts_ne_nil h) hpieces, Assembly.Statement.bytes, hread]
  rfl

theorem standsFor_dataText {bytes : List UInt8} (h : bytes ≠ []) :
    (Assembly.Line.ofText (dataText bytes)).StandsFor bytes := by
  have hne := byteTexts_ne_nil h
  have htrim : Text.trim (dataText bytes) = dataText bytes := by
    rw [dataText_eq]
    exact trim_word_join (by decide : ['D', 'B'] ≠ []) (by decide) hne
      fun p hp => isSolid_of_mem_byteTexts hp
  rw [(isPlain_dataText bytes).ofText_eq, htrim]
  refine ⟨rfl, .inr ⟨?_, _, parse_dataText h, [], rfl, ?_⟩⟩
  · rw [dataText_eq]
    exact List.cons_ne_nil _ _
  · exact (List.append_nil bytes).symm

end Listing
end CoreWar
