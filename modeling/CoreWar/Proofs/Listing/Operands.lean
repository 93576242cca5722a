import CoreWar.Proofs.Assembly.Grammar
import CoreWar.Proofs.Listing.Texts

/-!
# Operands are read back

A listing prints the word of an operand in one of two ways, as four hexadecimal digits or,
where the operand is relative, as a signed decimal number.  Both are numbers of the
assembler, and neither is a word of its language: they begin with a digit or a minus sign,
and the names of registers do not.  So every operand whose location exists is read as what
it was printed for, whatever its word is (`parse_operandText`).
-/

namespace CoreWar

/-! ## Digits -/

namespace Text

/-- A digit to the base sixteen, a capital if it is a letter. -/
def IsHexDigit (c : Char) : Prop := ∃ k < 16, c = hexDigit k

variable {c : Char} {cs : List Char}

/-- What holds of the sixteen digits holds of every digit. -/
theorem IsHexDigit.of_forall {P : Char → Prop} (h : IsHexDigit c)
    (hP : ∀ k : Fin 16, P (hexDigit k.val)) : P c := by
  obtain ⟨k, hk, rfl⟩ := h
  exact hP ⟨k, hk⟩

theorem isHexDigit_of_isDigit (h : c.isDigit = true) : IsHexDigit c := by
  simp only [Char.isDigit, Bool.and_eq_true, decide_eq_true_eq, UInt32.le_iff_toNat_le] at h
  have hlow : 48 ≤ c.toNat := h.1
  have hhigh : c.toNat ≤ 57 := h.2
  refine ⟨c.toNat - 48, by omega, ?_⟩
  have hzero : '0'.toNat + (c.toNat - 48) = c.toNat := by
    change 48 + (c.toNat - 48) = c.toNat
    omega
  rw [hexDigit, if_pos (by omega), hzero, Char.ofNat_toNat]

theorem isHexDigit_of_mem_hex {width n : Nat} (h : c ∈ hex width n) : IsHexDigit c := by
  fun_induction hex width n with
  | case1 width n hn =>
      obtain h | h := List.mem_append.mp h
      · obtain ⟨-, rfl⟩ := List.mem_replicate.mp h
        exact ⟨0, by decide, rfl⟩
      · exact ⟨n, hn, List.mem_singleton.mp h⟩
  | case2 width n hn ih =>
      obtain h | h := List.mem_append.mp h
      · exact ih h
      · exact ⟨n % 16, Nat.mod_lt n (by decide), List.mem_singleton.mp h⟩

theorem IsHexDigit.isBlank_eq_false (h : IsHexDigit c) : isBlank c = false :=
  h.of_forall (P := fun c => isBlank c = false) (by decide)

theorem IsHexDigit.upperChar_eq (h : IsHexDigit c) : upperChar c = [c] :=
  h.of_forall (P := fun c => upperChar c = [c]) (by decide)

theorem IsHexDigit.ne {d : Char} (h : IsHexDigit c) (hd : ∀ k : Fin 16, hexDigit k.val ≠ d) :
    c ≠ d :=
  h.of_forall (P := fun c => c ≠ d) hd

theorem upper_eq_self (h : ∀ c ∈ cs, upperChar c = [c]) : upper cs = cs := by
  induction cs with
  | nil => rfl
  | cons c cs ih =>
      rw [List.forall_mem_cons] at h
      have hcs : cs.flatMap upperChar = cs := ih h.2
      rw [upper, List.flatMap_cons, h.1, hcs, List.singleton_append]

theorem hex_ne_nil (width n : Nat) : hex width n ≠ [] := by
  unfold hex
  split <;> simp

end Text

namespace Assembly

namespace Numeral

theorem digit?_hexDigit {n : Nat} (h : n < 16) : digit? 16 (Text.hexDigit n) = some n := by
  have hall : ∀ k : Fin 16, digit? 16 (Text.hexDigit k.val) = some k.val := by decide
  exact hall ⟨n, h⟩

/-- Leading zeros do not count. -/
theorem natural?_replicate_zero (base k : Nat) (hbase : 0 < base) (c : Char) :
    natural? base (List.replicate k '0' ++ [c]) = digit? base c := by
  have hzero : digit? base '0' = some 0 := by simp [digit?, hbase]
  have hzeros : (List.replicate k '0').foldlM
      (fun n c => (digit? base c).map (n * base + ·)) 0 = some 0 := by
    induction k with
    | zero => rfl
    | succ k ih =>
        rw [List.replicate_succ, List.foldlM_cons, hzero]
        simpa using ih
  rw [natural?, if_neg (by simp), List.foldlM_append, hzeros]
  simp

/-- The last digit is read after the others, as it is printed. -/
theorem natural?_hex (width n : Nat) : natural? 16 (Text.hex width n) = some n := by
  fun_induction Text.hex width n with
  | case1 width n hn => rw [natural?_replicate_zero 16 _ (by decide), digit?_hexDigit hn]
  | case2 width n hn ih =>
      have hlast := digit?_hexDigit (Nat.mod_lt n (by decide : 16 > 0))
      rw [natural?_append (Text.hex_ne_nil _ _) ih hlast, Option.some_inj]
      omega

/-- A word in hexadecimal digits, with the mark of their base in capitals. -/
theorem parse_hex {n : Nat} (width : Nat) (h : n < 0x80000000) :
    parse ('0' :: 'X' :: Text.hex width n) = .ok n := by
  have hdigit : ∀ c ∈ Text.hex width n, Text.IsHexDigit c := fun c => Text.isHexDigit_of_mem_hex
  have hhead : ∀ d, (∀ k : Fin 16, Text.hexDigit k.val ≠ d) → (Text.hex width n).head? ≠ some d :=
    fun d hd h => (hdigit d (List.mem_of_mem_head? h)).ne hd rfl
  have hblank : ∀ c ∈ '0' :: 'X' :: Text.hex width n, Text.isBlank c = false := by
    simp only [List.forall_mem_cons]
    exact ⟨by decide, by decide, fun c hc => (hdigit c hc).isBlank_eq_false⟩
  have hvalue : based? ('0' :: 'X' :: Text.hex width n) = some (n : Int) := by
    change signed? 16 (Text.hex width n) = some (n : Int)
    rw [signed?_of_head?_ne (hhead _ (by decide)) (hhead _ (by decide)), natural?_hex]
    exact filter_fits h
  exact parse_of_based? (Text.trim_of_forall hblank) (by simp) hvalue

end Numeral
end Assembly

namespace Listing

open Assembly

/-! ## Words -/

/-- A signed word is the digits of a number, with a minus sign before those of a word whose
top bit is set. -/
theorem signedWord_eq (w : UInt16) : signedWord w =
    if w.toNat < 32768 then
      Nat.toDigits 10 w.toNat
    else
      '-' :: Nat.toDigits 10 (65536 - w.toNat) := by
  have hlt : w.toNat < 65536 := w.toNat_lt
  rw [signedWord, Int.toString_eq_repr]
  split
  next hw =>
    have hvalue : Int.bmod w.toNat 65536 = w.toNat := by
      apply Int.bmod_eq_of_le <;> omega
    rw [hvalue, Int.repr_eq_if, if_pos (by omega), Nat.toList_repr]
    rfl
  next hw =>
    have hvalue : Int.bmod w.toNat 65536 = -((65536 - w.toNat : Nat) : Int) := by
      rw [Int.bmod_def]
      omega
    rw [hvalue, Int.repr_eq_if, if_neg (by omega), Int.neg_neg, String.toList_append,
      Nat.toList_repr]
    rfl

theorem ofInt_toNat (w : UInt16) : UInt16.ofInt w.toNat = w := by
  apply UInt16.toNat_inj.mp
  have hlt : w.toNat < 65536 := w.toNat_lt
  rw [UInt16.ofInt, UInt16.toNat_ofNat']
  omega

/-- A word whose top bit is set is also a number below zero. -/
theorem ofInt_neg (w : UInt16) : UInt16.ofInt (-((65536 - w.toNat : Nat) : Int)) = w := by
  apply UInt16.toNat_inj.mp
  have hlt : w.toNat < 65536 := w.toNat_lt
  rw [UInt16.ofInt, UInt16.toNat_ofNat']
  omega

theorem isSolid_of_isHexDigit {cs : List Char} (h : ∀ c ∈ cs, Text.IsHexDigit c) : IsSolid cs :=
  fun c hc => ⟨(h c hc).isBlank_eq_false, (h c hc).ne (by decide)⟩

theorem isHexDigit_toDigits {n : Nat} : ∀ c ∈ Nat.toDigits 10 n, Text.IsHexDigit c := fun _ hc =>
  Text.isHexDigit_of_isDigit (Numeral.isDigit_of_mem_toDigits hc)

theorem isSolid_wordText (mode : AccessMode) (w : UInt16) : IsSolid (wordText mode w) := by
  cases mode with
  | direct =>
      have hmark : IsSolid ['0', 'x'] := by decide
      exact hmark.append (isSolid_of_isHexDigit fun c => Text.isHexDigit_of_mem_hex)
  | relative =>
      have hdigits (n : Nat) : IsSolid (Nat.toDigits 10 n) :=
        isSolid_of_isHexDigit isHexDigit_toDigits
      rw [wordText, signedWord_eq]
      split
      · exact hdigits _
      · have hminus : IsSolid ['-'] := by decide
        exact hminus.append (hdigits _)

theorem wordText_ne_nil (mode : AccessMode) (w : UInt16) : wordText mode w ≠ [] := by
  cases mode with
  | direct => exact List.cons_ne_nil _ _
  | relative =>
      rw [wordText, signedWord_eq]
      split
      · exact Nat.toDigits_ne_nil
      · exact List.cons_ne_nil _ _

theorem looksNumeric_toDigits (n : Nat) : Operand.looksNumeric (Nat.toDigits 10 n) = true := by
  cases hdigits : Nat.toDigits 10 n with
  | nil => exact absurd hdigits Nat.toDigits_ne_nil
  | cons c cs =>
      have hc : c.isDigit = true :=
        Numeral.isDigit_of_mem_toDigits (n := n) (hdigits ▸ List.mem_cons_self)
      rw [Operand.looksNumeric, hc, Bool.true_or]

theorem written_of_ofInt {text : List Char} {x : Int} {w : UInt16}
    (hfirst : Operand.looksNumeric text = true) (hx : Numeral.parse text = .ok x)
    (hrange : -32768 ≤ x ∧ x ≤ 65535) (hw : UInt16.ofInt x = w) :
    Slot.Written text (.value w) :=
  hw ▸ .value hfirst hx hrange.1 hrange.2

/-- The text of a word stands for the word, in either notation. -/
theorem written_wordText (mode : AccessMode) (w : UInt16) :
    Slot.Written (Text.upper (wordText mode w)) (.value w) := by
  have hlt : w.toNat < 65536 := w.toNat_lt
  have hupper (n : Nat) : Text.upper (Nat.toDigits 10 n) = Nat.toDigits 10 n :=
    Text.upper_eq_self fun c hc => (isHexDigit_toDigits c hc).upperChar_eq
  cases mode with
  | direct =>
      have hhex : Text.upper (Text.hex 4 w.toNat) = Text.hex 4 w.toNat :=
        Text.upper_eq_self fun c hc => (Text.isHexDigit_of_mem_hex hc).upperChar_eq
      have htext : Text.upper (wordText .direct w) = '0' :: 'X' :: Text.hex 4 w.toNat :=
        congrArg (fun cs => '0' :: 'X' :: cs) hhex
      rw [htext]
      exact written_of_ofInt rfl (Numeral.parse_hex 4 (by omega)) (by omega) (ofInt_toNat w)
  | relative =>
      rw [wordText, signedWord_eq]
      split
      next hw =>
        rw [hupper]
        exact written_of_ofInt (looksNumeric_toDigits _) (Numeral.parse_toDigits (by omega))
          (by omega) (ofInt_toNat w)
      next hw =>
        have htext : Text.upper ('-' :: Nat.toDigits 10 (65536 - w.toNat))
            = '-' :: Nat.toDigits 10 (65536 - w.toNat) := congrArg ('-' :: ·) (hupper _)
        rw [htext]
        exact written_of_ofInt rfl (Numeral.parse_minus_toDigits (by omega)) (by omega)
          (ofInt_neg w)

/-! ## Operands -/

/-- What the text of an operand is read as. -/
def printed (l : Location) (mode : AccessMode) (w : UInt16) : Operand :=
  ⟨l, mode, if l.hasImmediate then some (.value w) else none⟩

theorem operandText_ne_nil (l : Location) (mode : AccessMode) (w : UInt16) :
    operandText l mode w ≠ [] := by
  have hname : l.name.toList ≠ [] := by
    cases l <;> decide
  unfold operandText
  split
  · exact List.append_ne_nil_of_right_ne_nil _ (by decide)
  · exact List.append_ne_nil_of_right_ne_nil _ (by decide)
  · exact List.append_ne_nil_of_right_ne_nil _ (by decide)
  · exact List.append_ne_nil_of_right_ne_nil _ (wordText_ne_nil mode w)
  · exact List.append_ne_nil_of_right_ne_nil _ (List.cons_ne_nil _ _)
  · decide
  · exact List.append_ne_nil_of_right_ne_nil _ hname

theorem isSolid_operandText (l : Location) (mode : AccessMode) (w : UInt16) :
    IsSolid (operandText l mode w) := by
  have hmark : IsSolid (modeMark mode) := by
    cases mode <;> decide
  have hword := isSolid_wordText mode w
  have hname : IsSolid l.name.toList := by
    cases l <;> decide
  unfold operandText
  split
  · exact hmark.append (by decide)
  · exact hmark.append (by decide)
  · exact hmark.append (by decide)
  · exact hmark.append hword
  · exact ((hmark.append (by decide)).append hword).append (by decide)
  · decide
  · exact hmark.append hname

/-- A number is the name of no register. -/
theorem names_imd {text : List Char} {w : UInt16}
    (h : Slot.Written (Text.upper text) (.value w)) :
    Operand.Names text .imd (some (.value w)) := by
  have hnames : ∀ r ∈ Operand.registers, Operand.looksNumeric r.name.toList = false := by decide
  refine .immediate (fun r hr hname => ?_) h
  cases h with
  | value hfirst _ _ _ =>
      rw [← String.toList_ofList (l := Text.upper text), hname, hnames r hr] at hfirst
      cases hfirst

theorem names_pimd {inner : List Char} {w : UInt16} (htrim : Text.trim inner = inner)
    (h : Slot.Written (Text.upper inner) (.value w)) :
    Operand.Names (Operand.inBrackets inner) .pimd (some (.value w)) := by
  have hnames : ∀ x ∈ Operand.pointers, Operand.looksNumeric x.1.toList = false := by decide
  rw [← htrim] at h
  refine .memory (fun l hl => ?_) h
  have hname := hnames _ hl
  rw [String.toList_ofList] at hname
  cases h with
  | value hfirst _ _ _ =>
      rw [hname] at hfirst
      cases hfirst

theorem denotes_of_names {text : List Char} {l : Location} {w : UInt16} (mode : AccessMode)
    (hsolid : IsSolid text) (hfirst : text.head? ≠ some '$')
    (h : Operand.Names text l (some (.value w))) :
    Operand.Denotes (modeMark mode ++ text) ⟨l, mode, some (.value w)⟩ := by
  cases mode with
  | direct => exact .plain hfirst h
  | relative =>
      rw [← hsolid.trim_eq] at h
      exact .dollar h

/-- An operand whose location exists is read as what it was printed for. -/
theorem parse_operandText {l : Location} (hl : l ≠ .invalid) (mode : AccessMode) (w : UInt16) :
    Operand.parse (operandText l mode w) = .ok (printed l mode w) := by
  have hword := written_wordText mode w
  have hsolid := isSolid_wordText mode w
  cases l with
  | invalid => exact absurd rfl hl
  | imd =>
      have hfirst : (wordText mode w).head? ≠ some '$' := by
        intro h
        obtain ⟨cs, hcs⟩ := List.head?_eq_some_iff.mp h
        rw [hcs] at hword
        cases hword with
        | value hfirst _ _ _ => cases hfirst
      exact Operand.parse_eq_ok_iff.mpr (denotes_of_names mode hsolid hfirst (names_imd hword))
  | pimd =>
      have hbrackets : IsSolid (Operand.inBrackets (wordText mode w)) :=
        (IsSolid.append (by decide : IsSolid ['[']) hsolid).append (by decide : IsSolid [']'])
      have htext : operandText .pimd mode w
          = modeMark mode ++ Operand.inBrackets (wordText mode w) := by
        simp [operandText, Operand.inBrackets]
      rw [htext]
      exact Operand.parse_eq_ok_iff.mpr
        (denotes_of_names mode hbrackets (by simp [Operand.inBrackets])
          (names_pimd hsolid.trim_eq hword))
  | _ => cases mode <;> rfl

end Listing
end CoreWar
