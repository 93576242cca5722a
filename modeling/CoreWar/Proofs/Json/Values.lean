import CoreWar.Json.Reader

/-!
# The values that JSON texts spell

A text spells an integer only if it fits sixty-four bits (`fits_of_parse?`).  The two
readings of an object agree on its names: `entries` lists a name exactly if `field?`
has a value for it (`mem_names_entries_iff`), and it lists the names in order
(`pairwise_names_entries`).
-/

namespace CoreWar
namespace Json

/-! ## Integers of sixty-four bits -/

/-- An integer that fits sixty-four bits, signed if it is negative and unsigned
otherwise, or a double. -/
def Number.Fits : Number → Prop
  | .integer n => -0x8000000000000000 ≤ n ∧ n < 0x10000000000000000
  | .real _ => True

/-- A value with no integer that does not fit sixty-four bits. -/
inductive Fits : Json → Prop
  | null : Fits .null
  | bool (b : Bool) : Fits (.bool b)
  | number {n : Number} (h : n.Fits) : Fits (.number n)
  | string (s : String) : Fits (.string s)
  | array {items : List Json} (h : ∀ v ∈ items, Fits v) : Fits (.array items)
  | object {members : List (String × Json)} (h : ∀ m ∈ members, Fits m.2) :
      Fits (.object members)

theorem Numeral.fits_of_value? {n : Numeral} {x : Number} (h : n.value? = some x) : x.Fits := by
  unfold value? at h
  dsimp only at h
  split at h
  next hunsigned =>
    cases h
    have hlt : ofDigits n.whole < UInt64.size := by
      simp only [Bool.and_eq_true, decide_eq_true_eq] at hunsigned
      exact hunsigned.2
    have hsize : UInt64.size = 0x10000000000000000 := rfl
    exact ⟨by omega, by omega⟩
  · split at h
    next hsigned =>
      cases h
      simp only [Bool.and_eq_true, decide_eq_true_eq] at hsigned
      exact ⟨by omega, by omega⟩
    · obtain ⟨y, -, rfl⟩ := Option.map_eq_some_iff.mp h
      exact trivial

namespace Token

/-- A token whose number fits, if it is one. -/
def Fits : Token → Prop
  | .number n => n.Fits
  | _ => True

theorem fits_of_next? {cs rest : List Char} {t : Token} (h : next? cs = some (t, rest)) :
    t.Fits := by
  unfold next? at h
  split at h
  case h_10 =>
    obtain ⟨x, -, hx⟩ := Option.map_eq_some_iff.mp h
    cases hx
    exact trivial
  case h_11 =>
    split at h
    · obtain ⟨n, hn, hx⟩ := Option.map_eq_some_iff.mp h
      cases hx
      obtain ⟨numeral, -, hvalue⟩ := Option.bind_eq_some_iff.mp hn
      exact Numeral.fits_of_value? hvalue
    · cases h
  all_goals
    cases h
    try exact trivial

theorem fits_of_readAll? {read ts : List Token} {cs : List Char} (hread : ∀ t ∈ read, t.Fits)
    (h : readAll? read cs = some ts) : ∀ t ∈ ts, t.Fits := by
  fun_induction readAll? read cs with
  | case1 read =>
      cases h
      intro t ht
      exact hread t (List.mem_reverse.mp ht)
  | case2 read c cs _ ih => exact ih hread h
  | case3 read c cs _ t rest hnext ih =>
      exact ih (List.forall_mem_cons.mpr ⟨fits_of_next? hnext, hread⟩) h
  | case4 => cases h

end Token

/-- An open container whose values so far fit. -/
def Frame.Fits : Frame → Prop
  | .array items => ∀ v ∈ items, v.Fits
  | .object members _ => ∀ m ∈ members, m.2.Fits

/-- What has been read of the innermost value fits. -/
def Phase.Fits : Phase → Prop
  | .name members => ∀ m ∈ members, m.2.Fits
  | .colon members _ => ∀ m ∈ members, m.2.Fits
  | .done v => v.Fits
  | _ => True

namespace Reader

/-- All that has been read fits. -/
structure Fits (r : Reader) : Prop where
  frames : ∀ f ∈ r.frames, f.Fits
  phase : r.phase.Fits

variable {r r' : Reader} {t : Token}

theorem fits_of_begin? {frames : List Frame} (hframes : ∀ f ∈ frames, f.Fits) (ht : t.Fits)
    (h : begin? frames t = some r) : r.Fits := by
  unfold begin? at h
  split at h
  · cases h
    exact ⟨hframes, .null⟩
  · cases h
    exact ⟨hframes, .bool _⟩
  · cases h
    exact ⟨hframes, .number ht⟩
  · cases h
    exact ⟨hframes, .string _⟩
  · split at h
    · cases h
      exact ⟨hframes, trivial⟩
    · cases h
  · split at h
    · cases h
      exact ⟨hframes, trivial⟩
    · cases h
  · cases h

theorem fits_of_proceed? {v : Json} {frames : List Frame} (hv : v.Fits)
    (hframes : ∀ f ∈ frames, f.Fits) (h : proceed? v frames t = some r) : r.Fits := by
  unfold proceed? at h
  split at h
  next items _ =>
    cases h
    obtain ⟨hitems, hframes⟩ := List.forall_mem_cons.mp hframes
    have hmore : ∀ w ∈ v :: items, w.Fits := List.forall_mem_cons.mpr ⟨hv, hitems⟩
    exact ⟨List.forall_mem_cons.mpr ⟨hmore, hframes⟩, trivial⟩
  next items _ =>
    cases h
    obtain ⟨hitems, hframes⟩ := List.forall_mem_cons.mp hframes
    have hmore : ∀ w ∈ v :: items, w.Fits := List.forall_mem_cons.mpr ⟨hv, hitems⟩
    exact ⟨hframes, .array fun w hw => hmore w (List.mem_reverse.mp hw)⟩
  next members name _ =>
    cases h
    obtain ⟨hmembers, hframes⟩ := List.forall_mem_cons.mp hframes
    have hmore : ∀ m ∈ (name, v) :: members, m.2.Fits :=
      List.forall_mem_cons.mpr ⟨hv, hmembers⟩
    exact ⟨hframes, hmore⟩
  next members name _ =>
    cases h
    obtain ⟨hmembers, hframes⟩ := List.forall_mem_cons.mp hframes
    have hmore : ∀ m ∈ (name, v) :: members, m.2.Fits :=
      List.forall_mem_cons.mpr ⟨hv, hmembers⟩
    exact ⟨hframes, .object fun m hm => hmore m (List.mem_reverse.mp hm)⟩
  · cases h

theorem fits_of_read? (hr : r.Fits) (ht : t.Fits) (h : r.read? t = some r') : r'.Fits := by
  obtain ⟨frames, phase⟩ := r
  obtain ⟨hframes, hphase⟩ := hr
  unfold read? at h
  dsimp only at h hframes hphase
  split at h
  · exact fits_of_begin? hframes ht h
  · cases h
    exact ⟨hframes, .array (by simp)⟩
  · refine fits_of_begin? (List.forall_mem_cons.mpr ⟨?_, hframes⟩) ht h
    simp [Frame.Fits]
  · cases h
    exact ⟨hframes, .object (by simp)⟩
  · cases h
    exact ⟨hframes, by simp [Phase.Fits]⟩
  · cases h
    exact ⟨hframes, hphase⟩
  · cases h
    exact ⟨List.forall_mem_cons.mpr ⟨hphase, hframes⟩, trivial⟩
  · exact fits_of_proceed? hphase hframes h
  · cases h

theorem fits_of_foldlM {ts : List Token} (hr : r.Fits) (hts : ∀ t ∈ ts, t.Fits)
    (h : ts.foldlM read? r = some r') : r'.Fits := by
  induction ts generalizing r with
  | nil =>
      cases h
      exact hr
  | cons t ts ih =>
      obtain ⟨ht, hts⟩ := List.forall_mem_cons.mp hts
      rw [List.foldlM_cons] at h
      obtain ⟨next, hnext, hrest⟩ := Option.bind_eq_some_iff.mp h
      exact ih (fits_of_read? hr ht hnext) hts hrest

end Reader

/-- A text spells only integers that fit sixty-four bits. -/
theorem fits_of_parse? {text : String} {v : Json} (h : parse? text = some v) : v.Fits := by
  obtain ⟨ts, hts, h⟩ := Option.bind_eq_some_iff.mp h
  obtain ⟨r, hr, hresult⟩ := Option.bind_eq_some_iff.mp h
  have hread : ∀ t ∈ ts, t.Fits := Token.fits_of_readAll? (by simp) hts
  have hstart : Reader.Fits {} := ⟨by simp, trivial⟩
  have hfits : r.Fits := Reader.fits_of_foldlM hstart hread hr
  obtain ⟨frames, phase⟩ := r
  unfold Reader.result? at hresult
  split at hresult
  next hphase =>
    cases hresult
    have hdone := hfits.phase
    rw [hphase] at hdone
    exact hdone
  · cases hresult

/-! ## The names of an object -/

variable {members : List (String × Json)} {name : String} {v : Json}

/-- A field has a value that some member gives it. -/
theorem mem_of_field?_eq_some (h : field? members name = some v) : (name, v) ∈ members := by
  have hfold (found : Option Json) (ms : List (String × Json))
      (h : ms.foldl (fun found m => if m.1 = name then some m.2 else found) found = some v) :
      found = some v ∨ (name, v) ∈ ms := by
    induction ms generalizing found with
    | nil => exact .inl h
    | cons m ms ih =>
        rw [List.foldl_cons] at h
        obtain hfound | hmem := ih _ h
        · split at hfound
          next hname =>
            cases hfound
            rw [← hname]
            exact .inr List.mem_cons_self
          · exact .inl hfound
        · exact .inr (List.mem_cons_of_mem m hmem)
  obtain hnone | hmem := hfold none members h
  · cases hnone
  · exact hmem

theorem Fits.field? (h : Fits (.object members)) (hv : Json.field? members name = some v) :
    v.Fits := by
  cases h with
  | object hall => exact hall _ (mem_of_field?_eq_some hv)

theorem field?_ne_none_iff : field? members name ≠ none ↔ name ∈ members.map Prod.fst := by
  have hfold (found : Option Json) (ms : List (String × Json)) :
      ms.foldl (fun found m => if m.1 = name then some m.2 else found) found ≠ none ↔
        found ≠ none ∨ name ∈ ms.map Prod.fst := by
    induction ms generalizing found with
    | nil => simp
    | cons m ms ih =>
        rw [List.foldl_cons, ih, List.map_cons, List.mem_cons]
        by_cases hname : m.1 = name
        · simp [hname]
        · simp [hname, Ne.symm hname]
  exact (hfold none members).trans (by simp)

theorem mem_names_insertEntry_iff {new : String} {es : List (String × Json)} :
    name ∈ (insertEntry new v es).map Prod.fst ↔ name = new ∨ name ∈ es.map Prod.fst := by
  induction es with
  | nil => simp [insertEntry]
  | cons e es ih =>
      unfold insertEntry
      split
      next hnew => simp [hnew]
      · split
        · simp
        · rw [List.map_cons, List.mem_cons, ih, List.map_cons, List.mem_cons]
          exact or_left_comm

/-- The names that are listed are those that have a value. -/
theorem mem_names_entries_iff :
    name ∈ (entries members).map Prod.fst ↔ field? members name ≠ none := by
  have hfold (es ms : List (String × Json)) :
      name ∈ (ms.foldl (fun es m => insertEntry m.1 m.2 es) es).map Prod.fst ↔
        name ∈ es.map Prod.fst ∨ name ∈ ms.map Prod.fst := by
    induction ms generalizing es with
    | nil => simp
    | cons m ms ih =>
        rw [List.foldl_cons, ih, mem_names_insertEntry_iff, List.map_cons, List.mem_cons, or_assoc]
        exact or_left_comm
  rw [field?_ne_none_iff]
  exact (hfold [] members).trans (by simp)

theorem pairwise_insertEntry {es : List (String × Json)}
    (h : (es.map Prod.fst).Pairwise (· < ·)) :
    ((insertEntry name v es).map Prod.fst).Pairwise (· < ·) := by
  induction es with
  | nil => simp [insertEntry]
  | cons e es ih =>
      rw [List.map_cons, List.pairwise_cons] at h
      obtain ⟨hfirst, hrest⟩ := h
      unfold insertEntry
      split
      next hsame =>
        rw [List.map_cons, List.pairwise_cons]
        exact ⟨hsame ▸ hfirst, hrest⟩
      next hne =>
        split
        next hbefore =>
          rw [List.map_cons, List.pairwise_cons, List.map_cons, List.forall_mem_cons,
            List.pairwise_cons]
          exact ⟨⟨hbefore, fun other hother => String.lt_trans hbefore (hfirst other hother)⟩,
            hfirst, hrest⟩
        next hafter =>
          have hlater : e.1 < name := Decidable.byContradiction fun hle =>
            hne (String.le_antisymm (String.not_lt.mp hle) (String.not_lt.mp hafter))
          rw [List.map_cons, List.pairwise_cons]
          refine ⟨fun other hother => ?_, ih hrest⟩
          obtain rfl | hother := mem_names_insertEntry_iff.mp hother
          · exact hlater
          · exact hfirst other hother

/-- The names are listed in order, so none is listed twice. -/
theorem pairwise_names_entries (members : List (String × Json)) :
    ((entries members).map Prod.fst).Pairwise (· < ·) := by
  have hfold (es ms : List (String × Json)) (h : (es.map Prod.fst).Pairwise (· < ·)) :
      ((ms.foldl (fun es m => insertEntry m.1 m.2 es) es).map Prod.fst).Pairwise (· < ·) := by
    induction ms generalizing es with
    | nil => exact h
    | cons m ms ih => exact ih _ (pairwise_insertEntry h)
  exact hfold [] members .nil

end Json
end CoreWar
