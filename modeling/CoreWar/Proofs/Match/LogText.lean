import CoreWar.Match.EventLog
import CoreWar.Proofs.Json.Compact
import CoreWar.Proofs.Json.Values

/-!
# The text of a log

An event is written as an object on one line, and its fields are read back from it if its
counters fit sixty-four bits (`Event.ofJson?_fields`).  Greater counters are never read
(`EventLog.fits_of_eventOf?`), so a log is read back from its lines exactly if the counters
of all its events fit (`EventLog.emitted_reads_back`).
-/

namespace CoreWar

section ReadBack

variable {α β : Type} {write : α → β} {read? : β → Option α} {xs : List α}

/-- A list is read back from what its members are written as if each of them is. -/
theorem mapM_map_eq_some (h : ∀ x ∈ xs, read? (write x) = some x) :
    (xs.map write).mapM read? = some xs := by
  induction xs with
  | nil => rfl
  | cons x xs ih =>
      obtain ⟨hx, hxs⟩ := List.forall_mem_cons.mp h
      rw [List.map_cons, List.mapM_cons, hx, ih hxs]
      rfl

theorem exists_of_mapM_eq_some {ys : List β} (h : ys.mapM read? = some xs) :
    ∀ x ∈ xs, ∃ y, read? y = some x := by
  induction ys generalizing xs with
  | nil =>
      cases h
      simp
  | cons y ys ih =>
      rw [List.mapM_cons] at h
      obtain ⟨x, hx, h⟩ := Option.bind_eq_some_iff.mp h
      obtain ⟨xs, hxs, h⟩ := Option.bind_eq_some_iff.mp h
      cases h
      exact List.forall_mem_cons.mpr ⟨⟨y, hx⟩, ih hxs⟩

end ReadBack

namespace Event

variable {e : Event}

/-- The counters of an event fit sixty-four bits. -/
def Fits : Event → Prop
  | init cycle _ => cycle < UInt64.size
  | exec cycle _ _ end? => cycle < UInt64.size ∧ ∀ n ∈ end?, n < UInt64.size

instance : DecidablePred Fits
  | init cycle _ => inferInstanceAs (Decidable (cycle < UInt64.size))
  | exec cycle _ _ end? =>
    inferInstanceAs (Decidable (cycle < UInt64.size ∧ ∀ n ∈ end?, n < UInt64.size))

/-! ## The fields of an event -/

/-- The field that tells the kind of an event. -/
def kindField (kind : String) : Json.Field :=
  ⟨"type", '"' :: (kind.toList ++ ['"']), .string kind⟩

/-- A field that holds a number. -/
def numberField (name : String) (n : Nat) : Json.Field :=
  ⟨name, digits n, .number (.integer n)⟩

/-- The value that an address is written as. -/
def addressValue (a : UInt16) : Json := .number (.integer a.toNat)

/-- The field that lists the starts. -/
def startsField (starts : List UInt16) : Json.Field :=
  ⟨"starts", '[' :: (Text.join [','] (starts.map fun a => digits a.toNat) ++ [']']),
    .array (starts.map addressValue)⟩

/-- The fields of an event, in the order in which they are written. -/
def fields : Event → List Json.Field
  | init cycle starts => [kindField "init", numberField "cycle" cycle, startsField starts]
  | exec cycle pid ins end? =>
    [kindField "exec", numberField "cycle" cycle, numberField "pid" pid.toNat,
      numberField "ins" ins.toNat] ++ (end?.map (numberField "end")).toList

/-- The text of an event is that of the object with its fields. -/
theorem text_eq (e : Event) :
    e.text = '{' :: (Text.join [','] (e.fields.map Json.Field.written) ++ ['}']) := by
  -- The fixed parts of the text, cut where a field begins or its value does.
  have hcycle : ",\"cycle\":".toList = ',' :: '"' :: ("cycle".toList ++ ['"', ':']) := rfl
  have hinit : "\x7b\"type\":\"init\",\"cycle\":".toList =
      '{' :: ((kindField "init").written ++ ",\"cycle\":".toList) := rfl
  have hexec : "\x7b\"type\":\"exec\",\"cycle\":".toList =
      '{' :: ((kindField "exec").written ++ ",\"cycle\":".toList) := rfl
  have hstarts : ",\"starts\":[".toList =
      ',' :: '"' :: ("starts".toList ++ ['"', ':', '[']) := rfl
  have hpid : ",\"pid\":".toList = ',' :: '"' :: ("pid".toList ++ ['"', ':']) := rfl
  have hins : ",\"ins\":".toList = ',' :: '"' :: ("ins".toList ++ ['"', ':']) := rfl
  have hend : ",\"end\":".toList = ',' :: '"' :: ("end".toList ++ ['"', ':']) := rfl
  have hclose : "]\x7d".toList = [']', '}'] := rfl
  -- Their equation lemmas would decode these parts over and over, so they are unfolded.
  unfold text endText
  cases e with
  | init cycle starts =>
      simp only [hinit, hcycle, hstarts, hclose]
      simp [fields, Text.join, Json.Field.written, numberField, startsField]
  | exec cycle pid ins end? =>
      simp only [hexec, hcycle, hpid, hins]
      cases end? with
      | none => simp [fields, Text.join, Json.Field.written, numberField]
      | some n =>
          simp only [hend]
          simp [fields, Text.join, Json.Field.written, numberField]

example : (exec 3 2 256 (some 4)).text =
    "\x7b\"type\":\"exec\",\"cycle\":3,\"pid\":2,\"ins\":256,\"end\":4\x7d".toList := by
  decide +kernel

/-! ## Fields are written compactly -/

theorem compact_kindField {depth : Nat} {kind : String}
    (hkind : Json.Token.IsPlain kind.toList) : (kindField kind).Compact depth where
  plain := show Json.Token.IsPlain "type".toList by decide
  compact := Json.compact_quoted hkind

theorem compact_numberField {depth n : Nat} {name : String} (hn : n < UInt64.size)
    (hname : Json.Token.IsPlain name.toList) : (numberField name n).Compact depth :=
  ⟨hname, Json.compact_toDigits hn⟩

theorem pid_lt (pid : UInt8) : pid.toNat < UInt64.size :=
  Nat.lt_trans pid.toNat_lt (by decide)

theorem address_lt (a : UInt16) : a.toNat < UInt64.size :=
  Nat.lt_trans a.toNat_lt (by decide)

theorem compact_startsField (starts : List UInt16) : (startsField starts).Compact 1 where
  plain := show Json.Token.IsPlain "starts".toList by decide
  compact := Json.compact_array fun a _ => Json.compact_toDigits (address_lt a)

theorem compact_fields (h : e.Fits) : ∀ f ∈ e.fields, f.Compact 1 := by
  cases e with
  | init cycle starts =>
      simp only [fields, List.forall_mem_cons]
      exact ⟨compact_kindField (by decide), compact_numberField h (by decide),
        compact_startsField starts, by simp⟩
  | exec cycle pid ins end? =>
      obtain ⟨hcycle, hend⟩ := h
      simp only [fields, List.forall_mem_append, List.forall_mem_cons]
      refine ⟨⟨compact_kindField (by decide), compact_numberField hcycle (by decide),
        compact_numberField (pid_lt pid) (by decide),
        compact_numberField (address_lt ins) (by decide), by simp⟩, ?_⟩
      cases end? with
      | none => simp
      | some n => simpa using compact_numberField (hend n rfl) (by decide)

theorem compact_text (h : e.Fits) :
    Json.Compact 2 e.text (.object (e.fields.map Json.Field.member)) := by
  rw [text_eq]
  exact Json.compact_object (compact_fields h)

/-! ## Fields are read back -/

@[simp] theorem nat?_integer (n : Nat) : (Json.number (.integer n)).nat? = some n := by
  simp [Json.nat?]

@[simp] theorem pid?_toNat (pid : UInt8) : pid? (.number (.integer pid.toNat)) = some pid := by
  have hlt : pid.toNat < UInt8.size := pid.toNat_lt
  simp [pid?, Option.filter, hlt]

@[simp] theorem address?_toNat (a : UInt16) : address? (.number (.integer a.toNat)) = some a := by
  have hlt : a.toNat < UInt16.size := a.toNat_lt
  simp [address?, Option.filter, hlt]

@[simp] theorem starts?_map_addressValue (starts : List UInt16) :
    starts? (.array (starts.map addressValue)) = some starts :=
  mapM_map_eq_some fun a _ => address?_toNat a

/-- The fields of an event give the event. -/
theorem ofJson?_fields (e : Event) :
    ofJson? (.object (e.fields.map Json.Field.member)) = some e := by
  cases e with
  | init cycle starts =>
      simp [ofJson?, ofMembers?, only?, fields, Json.Field.member, kindField, numberField,
        startsField, Json.string?]
  | exec cycle pid ins end? =>
      cases end? <;>
        simp [ofJson?, ofMembers?, only?, atMostOne?, fields, Json.Field.member, kindField,
          numberField, Json.string?, endOf?]

/-! ## Only counters that fit are read -/

section Fits

variable {v : Json} {members : List (String × Json)} {n : Nat}

theorem lt_of_nat? (hv : v.Fits) (h : v.nat? = some n) : n < UInt64.size := by
  unfold Json.nat? at h
  split at h
  next m =>
    obtain ⟨-, h⟩ := Option.ite_none_right_eq_some.mp h
    have hm : m < 0x10000000000000000 := by
      cases hv with
      | number hfits => exact hfits.2
    have hsize : UInt64.size = 0x10000000000000000 := rfl
    have hn := Option.some.inj h
    omega
  next => cases h

theorem lt_of_endOf? {v? : Option Json} {end? : Option Nat} (hv : ∀ v ∈ v?, v.Fits)
    (h : endOf? v? = some end?) : ∀ n ∈ end?, n < UInt64.size := by
  unfold endOf? at h
  split at h
  next =>
    cases h
    simp
  next =>
    cases h
    simp
  next v _ =>
    obtain ⟨m, hm, rfl⟩ := Option.map_eq_some_iff.mp h
    rintro n hn
    cases hn
    exact lt_of_nat? (hv v rfl) hm

theorem mem_of_filter_eq_singleton {m : String × Json} {keep : String × Json → Bool}
    (h : members.filter keep = [m]) : m ∈ members := by
  have hmem : m ∈ members.filter keep := h ▸ List.mem_singleton_self m
  exact (List.mem_filter.mp hmem).1

theorem fits_of_only? {name : String} (hmembers : ∀ m ∈ members, m.2.Fits)
    (h : only? members name = some v) : v.Fits := by
  unfold only? at h
  split at h
  next m hm =>
    cases h
    exact hmembers m (mem_of_filter_eq_singleton hm)
  next => cases h

theorem fits_of_atMostOne? {name : String} {v? : Option Json}
    (hmembers : ∀ m ∈ members, m.2.Fits) (h : atMostOne? members name = some v?) :
    ∀ v ∈ v?, v.Fits := by
  unfold atMostOne? at h
  split at h
  next =>
    cases h
    simp
  next m hm =>
    cases h
    simpa using hmembers m (mem_of_filter_eq_singleton hm)
  next => cases h

theorem fits_of_ofMembers? (hmembers : ∀ m ∈ members, m.2.Fits)
    (h : ofMembers? members = some e) : e.Fits := by
  unfold ofMembers? at h
  simp only [Option.bind_eq_bind, Option.bind_eq_some_iff] at h
  obtain ⟨_, -, _, -, h⟩ := h
  split at h
  next =>
    simp only [Option.bind_eq_some_iff] at h
    obtain ⟨v, hv, n, hn, _, -, _, -, he⟩ := h
    cases he
    exact lt_of_nat? (fits_of_only? hmembers hv) hn
  next =>
    simp only [Option.bind_eq_some_iff] at h
    obtain ⟨v, hv, n, hn, _, -, _, -, _, -, _, -, v?, hv?, end?, hend, he⟩ := h
    cases he
    exact ⟨lt_of_nat? (fits_of_only? hmembers hv) hn,
      lt_of_endOf? (fits_of_atMostOne? hmembers hv?) hend⟩
  next => cases h

theorem fits_of_ofItems? {items : List Json} (hitems : ∀ v ∈ items, v.Fits)
    (h : ofItems? items = some e) : e.Fits := by
  unfold ofItems? at h
  split at h
  next cycle starts =>
    simp only [Option.bind_eq_bind, Option.bind_eq_some_iff] at h
    obtain ⟨n, hn, _, -, he⟩ := h
    cases he
    exact lt_of_nat? (hitems cycle (by simp)) hn
  next cycle pid ins =>
    simp only [Option.bind_eq_bind, Option.bind_eq_some_iff] at h
    obtain ⟨n, hn, _, -, _, -, he⟩ := h
    cases he
    exact ⟨lt_of_nat? (hitems cycle (by simp)) hn, by simp⟩
  next cycle pid ins last =>
    simp only [Option.bind_eq_bind, Option.bind_eq_some_iff] at h
    obtain ⟨n, hn, _, -, _, -, end?, hend, he⟩ := h
    cases he
    have hlast : ∀ v ∈ some last, v.Fits := by simpa using hitems last (by simp)
    exact ⟨lt_of_nat? (hitems cycle (by simp)) hn, lt_of_endOf? hlast hend⟩
  next => cases h

theorem fits_of_ofJson? (hv : v.Fits) (h : ofJson? v = some e) : e.Fits := by
  cases hv with
  | object hmembers => exact fits_of_ofMembers? hmembers h
  | array hitems => exact fits_of_ofItems? hitems h
  | _ => cases h

end Fits
end Event

namespace EventLog

open Event

/-! ## Lines -/

/-- Writes an event at the end of a text, on a line of its own. -/
def emit (text : List Char) (e : Event) : List Char := text ++ (e.text ++ ['\n'])

theorem foldl_emit (text : List Char) (events : List Event) :
    events.foldl emit text = text ++ textOf events := by
  induction events generalizing text with
  | nil => rw [textOf, List.flatMap_nil, List.append_nil, List.foldl_nil]
  | cons e es ih =>
      rw [List.foldl_cons, ih, emit, textOf, textOf, List.flatMap_cons, List.append_assoc]

/-- The lines of a log are the texts of its events. -/
theorem split_textOf {events : List Event} (h : ∀ e ∈ events, e.Fits) :
    Text.split '\n' (textOf events) = events.map Event.text ++ [[]] := by
  have hlines : ∀ l ∈ events.map Event.text, '\n' ∉ l :=
    List.forall_mem_map.mpr fun e he => (compact_text (h e he)).newline_not_mem
  rw [textOf, ← Text.split_flatMap_ended hlines, List.flatMap_map]

theorem eventOf?_text {e : Event} (h : e.Fits) : eventOf? e.text = some e := by
  rw [eventOf?, (compact_text h).parse?_eq (by decide), Option.bind_some, ofJson?_fields]

/-- No line gives an event whose counters do not fit. -/
theorem fits_of_eventOf? {e : Event} {line : List Char} (h : eventOf? line = some e) :
    e.Fits := by
  obtain ⟨v, hv, he⟩ := Option.bind_eq_some_iff.mp h
  exact fits_of_ofJson? (Json.fits_of_parse? hv) he

/-- Events that are written one after the other make the text of a log.  If their counters fit
sixty-four bits, and only then, this text has one line for each event, ended by a line feed and
without control characters, and the lines, read in order, are the events again. -/
theorem emitted_reads_back (events : List Event) :
    events.foldl emit [] = textOf events ∧
      ((∀ e ∈ events, e.Fits) ↔
        ∃ lines, Text.split '\n' (textOf events) = lines ++ [[]] ∧
          lines.length = events.length ∧ (∀ l ∈ lines, ∀ c ∈ l, ' ' ≤ c) ∧
          lines.mapM eventOf? = some events) := by
  refine ⟨foldl_emit [] events, ?_, ?_⟩
  · intro h
    refine ⟨events.map Event.text, split_textOf h, List.length_map .., ?_, ?_⟩
    · exact List.forall_mem_map.mpr fun e he => (compact_text (h e he)).inline
    · exact mapM_map_eq_some fun e he => eventOf?_text (h e he)
  · rintro ⟨lines, -, -, -, hread⟩ e he
    obtain ⟨line, hline⟩ := exists_of_mapM_eq_some hread e he
    exact fits_of_eventOf? hline

end EventLog
end CoreWar
