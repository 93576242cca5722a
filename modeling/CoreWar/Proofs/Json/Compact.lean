import CoreWar.Json.Reader
import CoreWar.Proofs.Text.Lines

/-!
# Compact JSON texts

A compact text has nothing between its tokens and stays on one line.  It is read back: the
digits of a number as the number, plain characters between quotes as the string, and texts
of values between brackets or braces as the array or the object of these values
(`Compact.parse?_eq`).

A number has no mark of its end, so how a text is cut into tokens may depend on what
follows it (`Token.Spells`).  In arrays and objects every value is followed by a separator
or a closing mark, which cannot continue a number.
-/

namespace CoreWar
namespace Json

/-! ## Numbers -/

namespace Numeral

theorem ofDigits_append_singleton (ds : List Nat) (d : Nat) :
    ofDigits (ds ++ [d]) = ofDigits ds * 10 + d := by
  simp [ofDigits]

theorem digit_digitChar {d : Nat} (h : d < 10) : digit d.digitChar = d := by
  have hall : ∀ k : Fin 10, digit k.val.digitChar = k.val := by decide
  exact hall ⟨d, h⟩

/-- The digits of a number have its value. -/
theorem ofDigits_toDigits (n : Nat) : ofDigits ((Nat.toDigits 10 n).map digit) = n := by
  induction n using Nat.strongRecOn with
  | _ n ih =>
      by_cases hsmall : n < 10
      · rw [Nat.toDigits_of_lt_base hsmall]
        simp [ofDigits, digit_digitChar hsmall]
      · rw [Nat.toDigits_of_base_le (by decide) (by omega), List.map_append, List.map_singleton,
          ofDigits_append_singleton, ih (n / 10) (by omega),
          digit_digitChar (Nat.mod_lt n (by decide))]
        omega

/-- Only zero begins with zero. -/
theorem eq_zero_of_head?_toDigits {n : Nat}
    (h : ((Nat.toDigits 10 n).map digit).head? = some 0) : n = 0 := by
  induction n using Nat.strongRecOn with
  | _ n ih =>
      by_cases hsmall : n < 10
      · rw [Nat.toDigits_of_lt_base hsmall] at h
        simpa [digit_digitChar hsmall] using h
      · have hne : (Nat.toDigits 10 (n / 10)).map digit ≠ [] := by simp
        rw [Nat.toDigits_of_base_le (by decide) (by omega), List.map_append, List.head?_append,
          List.head?_eq_some_head hne, Option.some_or, ← List.head?_eq_some_head hne] at h
        have hzero := ih (n / 10) (by omega) h
        omega

theorem digits_of_forall_isDigit {cs : List Char} (h : ∀ c ∈ cs, c.isDigit = true) :
    digits cs = (cs.map digit, []) := by
  have hall : (cs ++ []).takeWhile Char.isDigit = cs ∧ (cs ++ []).dropWhile Char.isDigit = [] :=
    Text.takeWhile_dropWhile_append h (by simp)
  rw [List.append_nil] at hall
  rw [digits, hall.1, hall.2]

/-- Digits are a numeral unless a zero stands before others. -/
theorem parse?_of_forall_isDigit {cs : List Char} (hne : cs ≠ [])
    (hdigits : ∀ c ∈ cs, c.isDigit = true)
    (hzero : (cs.map digit).head? = some 0 → cs.length = 1) :
    parse? cs = some { negative := false, whole := cs.map digit } := by
  have hsign : ∀ r, cs ≠ '-' :: r := by
    rintro r rfl
    exact absurd (hdigits '-' List.mem_cons_self) (by decide)
  have hwhole : ((cs.map digit).isEmpty || ((cs.map digit).head? == some 0 &&
      (cs.map digit).length != 1) || !([] : List Char).isEmpty) = false := by
    by_cases hhead : (cs.map digit).head? = some 0
    · simp [hne, hzero hhead]
    · rw [beq_eq_false_iff_ne.mpr hhead]
      simp [hne]
  rw [parse?, digits_of_forall_isDigit hdigits]
  · dsimp only [fraction?, exponent?]
    simp only [Option.bind_eq_bind, Option.bind_some]
    rw [hwhole]
    rfl
  · exact hsign

theorem isDigit_toDigits {n : Nat} : ∀ c ∈ Nat.toDigits 10 n, c.isDigit = true := fun _ hc =>
  Nat.isDigit_of_mem_toDigits (by decide) (by decide) hc

/-- The digits of a number are read as the number if it fits sixty-four bits. -/
theorem value?_toDigits {n : Nat} (h : n < UInt64.size) :
    (parse? (Nat.toDigits 10 n)).bind value? = some (.integer n) := by
  rw [parse?_of_forall_isDigit Nat.toDigits_ne_nil isDigit_toDigits fun hzero => ?_]
  · simp [value?, ofDigits_toDigits, h]
  · rw [eq_zero_of_head?_toDigits hzero]
    rfl

end Numeral

/-! ## Tokens -/

namespace Token

variable {c : Char} {cs ds rest : List Char} {t : Token} {ts us : List Token}

theorem next?_of_isNumeral (hc : isNumeral c = true) :
    next? (c :: cs) =
      ((Numeral.parse? (c :: cs.takeWhile isNumeral)).bind Numeral.value?).map
        fun n => (number n, cs.dropWhile isNumeral) := by
  unfold next?
  split
  case h_11 heq =>
    obtain ⟨rfl, rfl⟩ := List.cons.inj heq
    rw [if_pos hc]
  case h_12 heq => cases heq
  all_goals
    -- No other token begins with a character of which numerals consist.
    next heq =>
      obtain ⟨rfl, -⟩ := List.cons.inj heq
      exact absurd hc (by decide)

theorem isNumeral_of_isDigit (h : c.isDigit = true) : isNumeral c = true := by
  simp [isNumeral, h]

theorem next?_toDigits {n : Nat} (h : n < UInt64.size)
    (hrest : ∀ c ∈ rest.head?, isNumeral c = false) :
    next? (Nat.toDigits 10 n ++ rest) = some (number (.integer n), rest) := by
  obtain ⟨c, cs, hcs⟩ := List.exists_cons_of_ne_nil (Nat.toDigits_ne_nil (n := n) (b := 10))
  have hnumeral : ∀ d ∈ c :: cs, isNumeral d = true := fun d hd =>
    isNumeral_of_isDigit (Numeral.isDigit_toDigits d (hcs ▸ hd))
  rw [List.forall_mem_cons] at hnumeral
  obtain ⟨htake, hdrop⟩ := Text.takeWhile_dropWhile_append hnumeral.2 hrest
  rw [hcs, List.cons_append, next?_of_isNumeral hnumeral.1, htake, hdrop, ← hcs,
    Numeral.value?_toDigits h, Option.map_some]

/-- A text of characters that stand for themselves in a string. -/
def IsPlain (cs : List Char) : Prop := ∀ c ∈ cs, ' ' ≤ c ∧ c ≠ '"' ∧ c ≠ '\\'

instance (cs : List Char) : Decidable (IsPlain cs) :=
  List.decidableBAll (fun c => ' ' ≤ c ∧ c ≠ '"' ∧ c ≠ '\\') cs

theorem character?_of_plain (hlow : ' ' ≤ c) (hback : c ≠ '\\') :
    character? (c :: cs) = some (c, cs) := by
  unfold character?
  split
  next heq => exact absurd (List.cons.inj heq).1 hback
  next heq => exact absurd (List.cons.inj heq).1 hback
  next heq =>
    obtain ⟨rfl, rfl⟩ := List.cons.inj heq
    rw [if_neg (not_or.mpr ⟨Char.not_lt.mpr hlow, hback⟩)]
  next heq => cases heq

theorem stringBody?_append (read : List Char) (hcs : IsPlain cs) :
    stringBody? read (cs ++ '"' :: rest) = some (read.reverse ++ cs, rest) := by
  induction cs generalizing read with
  | nil => rw [List.append_nil, List.nil_append, stringBody?]
  | cons c cs ih =>
      obtain ⟨⟨hlow, hquote, hback⟩, hcs⟩ := List.forall_mem_cons.mp hcs
      have hc : character? (c :: (cs ++ '"' :: rest)) = some (c, cs ++ '"' :: rest) :=
        character?_of_plain hlow hback
      rw [List.cons_append, stringBody?]
      · split
        next heq =>
          rw [hc] at heq
          cases heq
          rw [ih _ hcs, List.reverse_cons, List.append_assoc, List.singleton_append]
        next heq =>
          rw [hc] at heq
          cases heq
      · rintro r heq
        exact hquote (List.cons.inj heq).1

theorem next?_quoted {s : String} (hs : IsPlain s.toList) :
    next? ('"' :: (s.toList ++ '"' :: rest)) = some (string s, rest) := by
  show (stringBody? [] (s.toList ++ '"' :: rest)).map _ = _
  rw [stringBody?_append [] hs]
  simp

theorem readAll?_of_next? {read : List Token} (h : next? cs = some (t, rest)) :
    readAll? read cs = readAll? (t :: read) rest := by
  cases cs with
  | nil => cases h
  | cons c cs =>
      have hspace : ¬isSpace c = true := by
        intro hc
        simp only [isSpace, Bool.or_eq_true, beq_iff_eq] at hc
        obtain ((rfl | rfl) | rfl) | rfl := hc <;> cases h
      rw [readAll?, if_neg hspace]
      split
      next hnext =>
        rw [h] at hnext
        cases hnext
        rfl
      next hnone =>
        rw [h] at hnone
        cases hnone

/-- A text is cut into tokens, whatever stands before it and whatever follows it that cannot
continue a number. -/
def Spells (cs : List Char) (ts : List Token) : Prop :=
  ∀ read rest, (∀ c ∈ rest.head?, isNumeral c = false) →
    readAll? read (cs ++ rest) = readAll? (ts.reverse ++ read) rest

theorem spells_nil : Spells [] [] := fun _ _ _ => rfl

/-- A token that ends by itself may stand before any text. -/
theorem Spells.token (hcs : ∀ rest, next? (cs ++ rest) = some (t, rest)) (hds : Spells ds ts) :
    Spells (cs ++ ds) (t :: ts) := by
  intro read rest hrest
  rw [List.append_assoc, readAll?_of_next? (hcs (ds ++ rest)), hds _ rest hrest,
    List.reverse_cons, List.append_assoc, List.singleton_append]

theorem Spells.append (hcs : Spells cs ts) (hds : Spells (c :: ds) us)
    (hc : isNumeral c = false) : Spells (cs ++ c :: ds) (ts ++ us) := by
  intro read rest hrest
  rw [List.append_assoc, hcs read (c :: ds ++ rest) (by simpa using hc), hds _ rest hrest,
    List.reverse_append, List.append_assoc]

theorem spells_toDigits {n : Nat} (h : n < UInt64.size) :
    Spells (Nat.toDigits 10 n) [number (.integer n)] := fun _ _ hrest =>
  readAll?_of_next? (next?_toDigits h hrest)

theorem ofText?_of_spells (h : Spells cs ts) : ofText? cs = some ts := by
  have hall := h [] [] (by simp)
  rwa [List.append_nil, List.append_nil, readAll?, List.reverse_reverse] at hall

end Token

/-! ## Reading tokens -/

namespace Reader

variable {c : Char} {cs ds : List Char} {t : Token} {r r₁ r₂ : Reader}

/-- Reading a text leads from one state of the reader to another. -/
def Leads (cs : List Char) (r r' : Reader) : Prop :=
  ∃ ts, Token.Spells cs ts ∧ ts.foldlM read? r = some r'

theorem leads_nil (r : Reader) : Leads [] r r := ⟨[], Token.spells_nil, rfl⟩

theorem Leads.token (hds : Leads ds r₁ r₂)
    (hcs : ∀ rest, Token.next? (cs ++ rest) = some (t, rest)) (ht : r.read? t = some r₁) :
    Leads (cs ++ ds) r r₂ := by
  obtain ⟨ts, hspells, hread⟩ := hds
  refine ⟨t :: ts, hspells.token hcs, ?_⟩
  rw [List.foldlM_cons, ht]
  exact hread

/-- A bracket, a brace or a separator. -/
theorem Leads.mark (hds : Leads ds r₁ r₂) (hc : ∀ rest, Token.next? (c :: rest) = some (t, rest))
    (ht : r.read? t = some r₁) : Leads (c :: ds) r r₂ := by
  show Leads ([c] ++ ds) r r₂
  exact hds.token hc ht

theorem Leads.quoted {s : String} (hds : Leads ds r₁ r₂)
    (hs : Token.IsPlain s.toList) (ht : r.read? (.string s) = some r₁) :
    Leads ('"' :: (s.toList ++ '"' :: ds)) r r₂ := by
  have hnext (rest : List Char) :
      Token.next? (('"' :: (s.toList ++ ['"'])) ++ rest) = some (.string s, rest) := by
    rw [List.cons_append, List.append_assoc]
    exact Token.next?_quoted hs
  simpa using hds.token hnext ht

theorem Leads.append (hcs : Leads cs r r₁) (hds : Leads (c :: ds) r₁ r₂)
    (hc : Token.isNumeral c = false) : Leads (cs ++ c :: ds) r r₂ := by
  obtain ⟨ts, hspells, hread⟩ := hcs
  obtain ⟨us, hspells', hread'⟩ := hds
  refine ⟨ts ++ us, hspells.append hspells' hc, ?_⟩
  rw [List.foldlM_append, hread]
  exact hread'

/-- The states in which a reader passes the pieces of a container, up to the token that closes it.
They depend on the pieces that have been read, the last one first. -/
structure Passage (α : Type) (closing : Token) where
  before : List α → Reader
  after : α → List α → Reader
  closed : List α → Reader
  comma : ∀ x read, (after x read).read? .comma = some (before (x :: read))
  close : ∀ x read, (after x read).read? closing = some (closed (x :: read))

/-- If every piece leads from the state before it to the state after it, pieces with commas between
them and a closing mark behind them lead through the whole passage. -/
theorem leads_join {α : Type} {piece : α → List Char} {xs : List α} (p : Passage α t)
    (hne : xs ≠ []) (hpiece : ∀ x ∈ xs, ∀ read, Leads (piece x) (p.before read) (p.after x read))
    (hmark : ∀ rest, Token.next? (c :: rest) = some (t, rest)) (hc : Token.isNumeral c = false)
    (read : List α) :
    Leads (Text.join [','] (xs.map piece) ++ [c]) (p.before read)
      (p.closed (xs.reverse ++ read)) := by
  -- By induction on the pieces that are left, whatever has been read before them.
  induction xs generalizing read with
  | nil => exact absurd rfl hne
  | cons x xs ih =>
      obtain ⟨hx, hxs⟩ := List.forall_mem_cons.mp hpiece
      cases xs with
      | nil =>
          have hend : Leads [c] (p.after x read) (p.closed (x :: read)) :=
            (leads_nil _).mark hmark (p.close x read)
          simpa [Text.join] using (hx read).append hend hc
      | cons y ys =>
          have hrest := ih (List.cons_ne_nil y ys) hxs (x :: read)
          have hcomma := hrest.mark (c := ',') (fun _ => rfl) (p.comma x read)
          rw [List.map_cons, List.map_cons, Text.join_cons_cons, List.reverse_cons]
          simpa using (hx read).append hcomma rfl

/-- Where an array has just been opened, a value is read as anywhere else. -/
theorem Leads.firstItem {frames frames' : List Frame} {v : Json}
    (h : Leads cs ⟨.array [] :: frames, .value⟩ ⟨frames', .done v⟩) :
    Leads cs ⟨frames, .firstItem⟩ ⟨frames', .done v⟩ := by
  obtain ⟨ts, hspells, hread⟩ := h
  refine ⟨ts, hspells, ?_⟩
  cases ts with
  | nil => cases hread
  | cons t ts =>
      rw [List.foldlM_cons] at hread ⊢
      obtain ⟨r, hr, hrest⟩ := Option.bind_eq_some_iff.mp hread
      -- No value begins with the token that would close the array.
      have hfirst : read? ⟨frames, .firstItem⟩ t = some r := by
        cases t with
        | closeArray => cases hr
        | _ => exact hr
      rw [hfirst]
      exact hrest

/-- The state in which a name may be read after other members, or the end of an object that was
just opened. -/
def atName (frames : List Frame) : List (String × Json) → Reader
  | [] => ⟨frames, .firstName⟩
  | m :: ms => ⟨frames, .name (m :: ms)⟩

theorem read?_atName {frames : List Frame} (members : List (String × Json)) (name : String) :
    (atName frames members).read? (.string name) = some ⟨frames, .colon members name⟩ := by
  cases members with
  | nil => rfl
  | cons m ms => rfl

/-- The passage through the items of an array. -/
def itemPassage {α : Type} (value : α → Json) (frames : List Frame) : Passage α .closeArray where
  before read := ⟨.array (read.map value) :: frames, .value⟩
  after x read := ⟨.array (read.map value) :: frames, .done (value x)⟩
  closed read := ⟨frames, .done (.array (read.map value).reverse)⟩
  comma _ _ := rfl
  close _ _ := rfl

/-- The passage through the members of an object. -/
def memberPassage {α : Type} (member : α → String × Json) (frames : List Frame) :
    Passage α .closeObject where
  before read := atName frames (read.map member)
  after x read := ⟨.object (read.map member) (member x).1 :: frames, .done (member x).2⟩
  closed read := ⟨frames, .done (.object (read.map member).reverse)⟩
  comma _ _ := rfl
  close _ _ := rfl

end Reader

/-! ## Values -/

open Reader

/-- A text of a value on one line.  It is read as the value wherever a value may stand, unless
containers are nested too deep: those that are open already and at most `depth` in the text. -/
structure Compact (depth : Nat) (text : List Char) (v : Json) : Prop where
  /-- There are no control characters, so there is no line break. -/
  inline : ∀ c ∈ text, ' ' ≤ c
  reads : ∀ frames : List Frame, frames.length + depth ≤ maxDepth →
    Leads text ⟨frames, .value⟩ ⟨frames, .done v⟩

/-- A member of an object and the text of its value. -/
structure Field where
  name : String
  text : List Char
  value : Json

namespace Field

/-- The member that a field is read as. -/
def member (f : Field) : String × Json := (f.name, f.value)

/-- A field as it is written. -/
def written (f : Field) : List Char := '"' :: (f.name.toList ++ '"' :: ':' :: f.text)

/-- A field whose name stands for itself and whose text is a text of its value. -/
structure Compact (depth : Nat) (f : Field) : Prop where
  plain : Token.IsPlain f.name.toList
  compact : Json.Compact depth f.text f.value

end Field

variable {depth : Nat}

theorem Compact.newline_not_mem {text : List Char} {v : Json} (h : Compact depth text v) :
    '\n' ∉ text := fun hmem => absurd (h.inline _ hmem) (by decide)

theorem space_le_of_isDigit {c : Char} (h : c.isDigit = true) : ' ' ≤ c := by
  simp only [Char.isDigit, Bool.and_eq_true, decide_eq_true_eq] at h
  exact Char.le_trans (show ' ' ≤ '0' by decide) h.1

theorem compact_toDigits {n : Nat} (h : n < UInt64.size) :
    Compact depth (Nat.toDigits 10 n) (.number (.integer n)) where
  inline c hc := space_le_of_isDigit (Numeral.isDigit_toDigits c hc)
  reads _ _ := ⟨_, Token.spells_toDigits h, rfl⟩

theorem compact_quoted {s : String} (hs : Token.IsPlain s.toList) :
    Compact depth ('"' :: (s.toList ++ ['"'])) (.string s) where
  inline := by
    rw [List.forall_mem_cons, List.forall_mem_append, List.forall_mem_singleton]
    exact ⟨by decide, fun c hc => (hs c hc).1, by decide⟩
  reads _ _ := (leads_nil _).quoted hs rfl

/-- Pieces on one line stay on it between two marks. -/
theorem inline_join {pieces : List (List Char)} {first last : Char} (hfirst : ' ' ≤ first)
    (hlast : ' ' ≤ last) (h : ∀ p ∈ pieces, ∀ c ∈ p, ' ' ≤ c) :
    ∀ c ∈ first :: (Text.join [','] pieces ++ [last]), ' ' ≤ c := by
  rw [List.forall_mem_cons, List.forall_mem_append, List.forall_mem_singleton]
  refine ⟨hfirst, fun c hc => ?_, hlast⟩
  obtain hcomma | ⟨p, hp, hc⟩ := Text.mem_join hc
  · rw [List.mem_singleton.mp hcomma]
    decide
  · exact h p hp c hc

/-- The texts of the items between brackets are a text of the array. -/
theorem compact_array {α : Type} {text : α → List Char} {value : α → Json} {items : List α}
    (h : ∀ x ∈ items, Compact depth (text x) (value x)) :
    Compact (depth + 1) ('[' :: (Text.join [','] (items.map text) ++ [']']))
      (.array (items.map value)) where
  inline := inline_join (by decide) (by decide)
    (List.forall_mem_map.mpr fun x hx => (h x hx).inline)
  reads frames hdepth := by
    have hopen : read? ⟨frames, .value⟩ .openArray = some ⟨frames, .firstItem⟩ :=
      if_pos (show frames.length < maxDepth by omega)
    have hinner : frames.length + 1 + depth ≤ maxDepth := by omega
    refine Leads.mark ?_ (fun _ => rfl) hopen
    by_cases hne : items = []
    · subst hne
      exact (leads_nil _).mark (fun _ => rfl) rfl
    · have hitems := leads_join (c := ']') (itemPassage value frames) hne
        (fun x hx _ => (h x hx).reads _ hinner) (fun _ => rfl) rfl []
      simpa [itemPassage] using hitems.firstItem

theorem Field.Compact.inline {f : Field} (h : f.Compact depth) : ∀ c ∈ f.written, ' ' ≤ c := by
  simp only [written, List.forall_mem_cons, List.forall_mem_append]
  exact ⟨by decide, fun c hc => (h.plain c hc).1, by decide, by decide, h.compact.inline⟩

/-- From a state in which its name may be read, a field leads to one in which its value has been. -/
theorem Field.Compact.leads {f : Field} (h : f.Compact depth) {frames : List Frame}
    (hdepth : frames.length + 1 + depth ≤ maxDepth) {r : Reader} {read : List (String × Json)}
    (hr : r.read? (.string f.name) = some ⟨frames, .colon read f.name⟩) :
    Leads f.written r ⟨.object read f.name :: frames, .done f.value⟩ := by
  have hvalue := h.compact.reads (.object read f.name :: frames) hdepth
  have hcolon : Leads (':' :: f.text) ⟨frames, .colon read f.name⟩
      ⟨.object read f.name :: frames, .done f.value⟩ :=
    hvalue.mark (t := .colon) (fun _ => rfl) rfl
  exact hcolon.quoted h.plain hr

/-- The fields between braces are a text of the object. -/
theorem compact_object {fields : List Field} (h : ∀ f ∈ fields, f.Compact depth) :
    Compact (depth + 1) ('{' :: (Text.join [','] (fields.map Field.written) ++ ['}']))
      (.object (fields.map Field.member)) where
  inline := inline_join (by decide) (by decide)
    (List.forall_mem_map.mpr fun f hf => (h f hf).inline)
  reads frames hdepth := by
    have hopen : read? ⟨frames, .value⟩ .openObject = some ⟨frames, .firstName⟩ :=
      if_pos (show frames.length < maxDepth by omega)
    have hinner : frames.length + 1 + depth ≤ maxDepth := by omega
    refine Leads.mark ?_ (fun _ => rfl) hopen
    by_cases hne : fields = []
    · subst hne
      exact (leads_nil _).mark (fun _ => rfl) rfl
    · have hfields := leads_join (c := '}') (memberPassage Field.member frames) hne
        (fun f hf _ => (h f hf).leads hinner (read?_atName _ f.name)) (fun _ => rfl) rfl []
      simpa [memberPassage, atName] using hfields

/-- A compact text spells its value. -/
theorem Compact.parse?_eq {text : List Char} {v : Json} (h : Compact depth text v)
    (hdepth : depth ≤ maxDepth) : parse? (String.ofList text) = some v := by
  obtain ⟨ts, hspells, hread⟩ := h.reads [] (by simpa using hdepth)
  rw [parse?, String.toList_ofList, Token.ofText?_of_spells hspells, Option.bind_some,
    ofTokens?, hread]
  rfl

end Json
end CoreWar
