import CoreWar.Proofs.Assembly.Grammar
import CoreWar.Proofs.Assembly.Lines

/-!
# Lines on their own and together

A line that neither defines nor refers to a label does not notice the lines around it: it stands
for the same bytes, or fails for the same reason, on its own and among others.  So a text of such
lines assembles to what its lines assemble to one after the other, and it fails like the first of
them that fails (`assembles_linewise`).

Where there are labels, two things are still decided before any label is looked up: whether every
line is in order by itself, and whether a label is defined twice.
-/

namespace CoreWar
namespace Assembly

open Checks

/-- Whether a label was used that no line defines. -/
def Cause.isUndefined : Cause → Bool
  | .undefinedLabel _ => true
  | _ => false

/-- Whether an error is that of a label that no line defines. -/
def Error.isUndefined (e : Error) : Bool := e.cause.isUndefined

/-- Whether assembling stopped because of an error of some kind. -/
def Stop.any {ε : Type} (p : ε → Bool) : Stop ε → Bool
  | overflow => false
  | fault e => p e

theorem Stop.any_map {ε δ : Type} (p : δ → Bool) (f : ε → δ) (stop : Stop ε) :
    (stop.map f).any p = stop.any fun e => p (f e) := by
  cases stop <;> rfl

theorem Stop.map_map {ε δ γ : Type} (g : δ → γ) (f : ε → δ) (stop : Stop ε) :
    (stop.map f).map g = stop.map fun e => g (f e) := by
  cases stop <;> rfl

/-- A line neither defines nor refers to a label.  What stands before a colon defines no label if
it is no word. -/
structure Line.IsFree (text : List Char) : Prop where
  label : ∀ label, (Line.ofText text).label = some label →
    ∃ stop, Line.labelName label = .error stop
  slots : ∀ s, Statement.parse (Line.ofText text).body = .ok s → ∀ name, .label name ∉ s.slots

/-! ## Errors that are found line by line -/

section Errors

variable {text : List Char} {l : Layout} {line : Nat}

theorem Numeral.failsWith_parse :
    FailsWith (Stop.any Cause.isUndefined · = false) (Numeral.parse text) := by
  unfold Numeral.parse Numeral.parseTrimmed
  split
  · refine .elim (.error rfl) fun x => ?_
    unfold Numeral.negate
    split
    · exact .ok _
    · exact .error rfl
  · exact .elim (.error rfl) .ok

theorem Numeral.failsWith_toByte {x : Int} :
    FailsWith (Stop.any Cause.isUndefined · = false) (Numeral.toByte x) := by
  unfold Numeral.toByte
  split
  · exact .ok _
  · exact .error rfl

theorem Numeral.failsWith_toWord {x : Int} :
    FailsWith (Stop.any Cause.isUndefined · = false) (Numeral.toWord x) := by
  unfold Numeral.toWord
  split
  · exact .ok _
  · exact .error rfl

theorem Operand.failsWith_parse :
    FailsWith (Stop.any Cause.isUndefined · = false) (Operand.parse text) := by
  rw [Operand.parse_eq]
  cases Operand.named? text with
  | some l => exact .ok _
  | none =>
      rw [Option.map_none, Option.getD_none, Operand.immediate]
      split
      · exact .error rfl
      · split
        · exact Numeral.failsWith_parse.bind fun _ => Numeral.failsWith_toWord.bind fun _ => .ok _
        · split
          · exact .ok _
          · exact .error rfl

theorem Statement.failsWith_parse :
    FailsWith (Stop.any Cause.isUndefined · = false) (Statement.parse text) := by
  unfold Statement.parse
  dsimp only
  split
  · exact (FailsWith.mapM (fun _ => Numeral.failsWith_parse.bind fun _ =>
      Numeral.failsWith_toByte) _).bind fun _ => .ok _
  · exact (FailsWith.mapM (fun _ => Numeral.failsWith_parse.bind fun _ =>
      Numeral.failsWith_toWord) _).bind fun _ => .ok _
  · split
    · unfold Statement.instruction
      split
      · exact .error rfl
      · refine (FailsWith.mapM (fun _ => Operand.failsWith_parse) _).bind fun os => ?_
        dsimp only
        split
        · exact .ok _
        · exact .error rfl
    · exact .error rfl

/-- While lines are laid out no label is looked up. -/
theorem Layout.failsWith_addLine :
    FailsWith (Stop.any Cause.isUndefined · = false) (l.addLine line text) := by
  rw [Layout.addLine_eq]
  refine FailsWith.bind ?_ fun l₁ => ?_
  · cases (Line.ofText text).label with
    | none => exact .ok _
    | some label =>
        refine FailsWith.bind ?_ fun name => ?_
        · unfold Line.labelName
          dsimp only
          split
          · exact .error rfl
          · exact .ok _
        · unfold Layout.define
          split
          · exact .error rfl
          · exact .ok _
  · unfold Layout.addBody
    split
    · exact .ok _
    · exact Statement.failsWith_parse.bind fun _ => .ok _

theorem Layout.failsWith_addLines {lines : List (List Char)} :
    FailsWith (Stop.any Error.isUndefined · = false) (l.addLines (lines.zipIdx line)) := by
  induction lines generalizing l line with
  | nil => exact .ok _
  | cons first rest ih =>
      rw [List.zipIdx_cons, Layout.addLines, List.foldlM_cons]
      refine FailsWith.bind ?_ fun l₁ => ih
      dsimp only
      cases hadd : l.addLine line first with
      | ok l₁ => exact .ok _
      | error stop =>
          exact .error ((Stop.any_map _ _ stop).trans (Layout.failsWith_addLine stop hadd))

theorem failsWith_resolve {labels : Std.HashMap String UInt16} {address : Nat} (slot : Slot) :
    FailsWith (Stop.any Cause.isUndefined · = true) (resolve labels address slot) := by
  cases slot with
  | value w => exact .ok w
  | label name =>
      rw [resolve]
      split
      · exact .ok _
      · exact .error rfl

/-- Once the lines are laid out, all that is left to fail is that a label is not defined. -/
theorem Layout.failsWith_bytes : FailsWith (Stop.any Error.isUndefined · = true) l.bytes := by
  refine FailsWith.map (FailsWith.mapM (fun p => ?_) _)
  have hwords : FailsWith (Stop.any Cause.isUndefined · = true)
      (p.statement.slots.mapM (resolve l.labels p.address)) := .mapM failsWith_resolve _
  unfold Placed.bytes
  split
  next => exact .ok _
  next stop hstop => exact .error ((Stop.any_map _ _ stop).trans (hwords stop hstop))

/-- A line that is in order among others is in order by itself. -/
theorem Layout.exists_addLine_empty {l' : Layout} (h : l.addLine line text = .ok l') (n : Nat) :
    ∃ l₁, Layout.addLine {} n text = .ok l₁ := by
  rw [Layout.addLine_eq] at h
  obtain ⟨l₁, hlabel, hbody⟩ := bind_eq_ok.mp h
  obtain ⟨l₂, hlabel⟩ : ∃ l₂, Layout.addLabel {} (Line.ofText text).label = .ok l₂ := by
    cases hsome : (Line.ofText text).label with
    | none => exact ⟨{}, rfl⟩
    | some label =>
        rw [hsome] at hlabel
        obtain ⟨name, hname, -⟩ := bind_eq_ok.mp hlabel
        have hnone : ({} : Layout).labels[name]? = none := by simp
        exact ⟨_, bind_eq_ok.mpr ⟨name, hname, Layout.define_of_getElem?_eq_none hnone⟩⟩
  rw [Layout.addLine_eq, hlabel]
  change ∃ l₃, l₂.addBody n (Line.ofText text).body = .ok l₃
  unfold Layout.addBody at hbody ⊢
  split at hbody
  next hnil => exact ⟨l₂, if_pos hnil⟩
  next hne =>
    obtain ⟨s, hs, -⟩ := bind_eq_ok.mp hbody
    exact ⟨_, by rw [if_neg hne, hs]; rfl⟩

theorem Layout.exists_addLine_of_addLines {lines : List (List Char)} {l' : Layout}
    (h : l.addLines (lines.zipIdx line) = .ok l') (ht : text ∈ lines) :
    ∃ l₁ n l₂, Layout.addLine l₁ n text = .ok l₂ := by
  induction lines generalizing l line with
  | nil => cases ht
  | cons first rest ih =>
      obtain ⟨l₁, hfirst, hrest⟩ := Layout.addLines_cons_eq_ok h
      rcases List.mem_cons.mp ht with rfl | ht
      · exact ⟨l, line, l₁, hfirst⟩
      · exact ih hrest ht

/-- A line defines only a label that is still free. -/
theorem Layout.getElem?_eq_none_of_addLine {l' : Layout} {name : String}
    (h : l.addLine line text = .ok l') (hdefines : Line.Defines text name) :
    l.labels[name]? = none := by
  obtain ⟨label, hlabel, rfl⟩ := hdefines
  rw [Layout.addLine_eq, hlabel] at h
  obtain ⟨l₁, h, -⟩ := bind_eq_ok.mp h
  obtain ⟨name, hname, hdefine⟩ := bind_eq_ok.mp h
  rw [← Line.name_of_labelName hname]
  exact (Layout.define_eq_ok hdefine).1

theorem Layout.getElem?_eq_none_of_addLines {lines : List (List Char)} {l' : Layout}
    {name : String} (h : l.addLines (lines.zipIdx line) = .ok l') (ht : text ∈ lines)
    (hdefines : Line.Defines text name) : l.labels[name]? = none := by
  induction lines generalizing l line with
  | nil => cases ht
  | cons first rest ih =>
      obtain ⟨l₁, hfirst, hrest⟩ := Layout.addLines_cons_eq_ok h
      rcases List.mem_cons.mp ht with rfl | ht
      · exact Layout.getElem?_eq_none_of_addLine hfirst hdefines
      · rw [Option.eq_none_iff_forall_ne_some]
        intro w hw
        have hkept := (Layout.getElem?_addLine hfirst).mpr (.inl hw)
        rw [ih hrest ht] at hkept
        cases hkept

/-- No two lines that are laid out define the same label. -/
theorem Layout.pairwise_of_addLines {lines : List (List Char)} {l' : Layout}
    (h : l.addLines (lines.zipIdx line) = .ok l') :
    lines.Pairwise fun x y => ∀ name, Line.Defines x name → ¬Line.Defines y name := by
  induction lines generalizing l line with
  | nil => exact .nil
  | cons first rest ih =>
      obtain ⟨l₁, hfirst, hrest⟩ := Layout.addLines_cons_eq_ok h
      refine .cons (fun y hy name hx hdefines => ?_) (ih hrest)
      have hnone := Layout.getElem?_eq_none_of_addLines hrest hy hdefines
      rw [(Layout.getElem?_addLine hfirst).mpr (.inr ⟨hx, rfl⟩)] at hnone
      cases hnone

/-- Where the lines of a text can be laid out, each is in order by itself and no label is defined
twice. -/
theorem Layout.lines_of_addLines {source : List Char} {l' : Layout}
    (h : l.addLines ((Text.split '\n' source).zipIdx line) = .ok l') :
    (∀ text ∈ Text.split '\n' source,
        FailsWith (Stop.any Error.isUndefined · = true) (ofText text)) ∧
      (Text.split '\n' source).Pairwise
        fun x y => ∀ name, Line.Defines x name → ¬Line.Defines y name := by
  refine ⟨fun text htext => ?_, Layout.pairwise_of_addLines h⟩
  obtain ⟨l₁, n, l₂, hadd⟩ := Layout.exists_addLine_of_addLines h htext
  obtain ⟨l₃, hadd⟩ := Layout.exists_addLine_empty hadd 1
  rw [ofText, Text.split_of_not_mem (Text.not_mem_of_mem_split htext), List.zipIdx_cons,
    Layout.addLines, List.foldlM_cons]
  change FailsWith _ (((Layout.addLine {} 1 text).mapError _ >>= _) >>= _)
  rw [hadd]
  exact Layout.failsWith_bytes

end Errors

/-! ## Lines without labels -/

section Free

variable {text : List Char} {stop : Stop Cause}

theorem exists_eq_map_value {slots : List Slot} (h : ∀ name, .label name ∉ slots) :
    ∃ ws : List UInt16, slots = ws.map Slot.value := by
  induction slots with
  | nil => exact ⟨[], rfl⟩
  | cons slot slots ih =>
      obtain ⟨ws, rfl⟩ := ih fun name hmem => h name (List.mem_cons_of_mem _ hmem)
      cases slot with
      | value w => exact ⟨w :: ws, rfl⟩
      | label name => exact absurd List.mem_cons_self (h name)

/-- A line without labels stands for bytes, or it fails for one reason wherever it is put. -/
theorem Line.IsFree.standsFor_or_fails (h : Line.IsFree text) :
    (∃ bytes, (Line.ofText text).StandsFor bytes) ∨
      ∃ stop, ∀ (l : Layout) (line : Nat), l.addLine line text = .error stop := by
  cases hlabel : (Line.ofText text).label with
  | some label =>
      obtain ⟨stop, hstop⟩ := h.label label hlabel
      refine .inr ⟨stop, fun l line => ?_⟩
      rw [Layout.addLine_eq, hlabel, Layout.addLabel, hstop]
      rfl
  | none =>
      by_cases hbody : (Line.ofText text).body = []
      · exact .inl ⟨[], hlabel, .inl ⟨hbody, rfl⟩⟩
      · cases hparse : Statement.parse (Line.ofText text).body with
        | error stop =>
            refine .inr ⟨stop, fun l line => ?_⟩
            rw [Layout.addLine_of_label_eq_none hlabel, if_neg hbody, hparse]
            rfl
        | ok s =>
            obtain ⟨ws, hws⟩ := exists_eq_map_value (h.slots s hparse)
            exact .inl ⟨_, hlabel, .inr ⟨hbody, s, hparse, ws, hws, rfl⟩⟩

/-- Lines fail like the first of them that fails wherever it is put. -/
theorem ofText_of_fails {α : Type} {lines : α → List Char} {bytes : α → List UInt8}
    {front : List α} {back : List (List Char)} (hfront : ∀ x ∈ front, '\n' ∉ lines x)
    (hline : '\n' ∉ text) (hback : ∀ x ∈ back, '\n' ∉ x)
    (hbytes : ∀ x ∈ front, (Line.ofText (lines x)).StandsFor (bytes x))
    (hfails : ∀ (l : Layout) (line : Nat), l.addLine line text = .error stop) :
    ofText (Text.join ['\n'] (front.map lines ++ text :: back)) =
      .error (stop.map (Error.mk (front.length + 1))) := by
  have hsplit : Text.split '\n' (Text.join ['\n'] (front.map lines ++ text :: back)) =
      front.map lines ++ text :: back := by
    refine Text.split_join (by simp) ?_
    intro p hp
    rcases List.mem_append.mp hp with hp | hp
    · obtain ⟨x, hx, rfl⟩ := List.mem_map.mp hp
      exact hfront x hx
    · rcases List.mem_cons.mp hp with rfl | hp
      · exact hline
      · exact hback p hp
  obtain ⟨l, hl, -⟩ := Layout.standsFor_empty.addLines hbytes 1
  rw [ofText, hsplit, List.zipIdx_append, Layout.addLines, List.foldlM_append]
  change (Layout.addLines {} ((front.map lines).zipIdx 1) >>= _) >>= _ = _
  rw [hl, List.length_map, Nat.add_comm, List.zipIdx_cons]
  change (List.foldlM _ l _ >>= _) = _
  rw [List.foldlM_cons, hfails]
  rfl

/-- What a line without labels stands for, or why it fails, is what comes of it on its own. -/
theorem Line.IsFree.ofText_cases (h : Line.IsFree text) (hline : '\n' ∉ text) :
    (∃ bytes, (Line.ofText text).StandsFor bytes ∧ Assembly.ofText text = .ok bytes) ∨
      ∃ stop, (∀ (l : Layout) (line : Nat), l.addLine line text = .error stop) ∧
        Assembly.ofText text = .error (stop.map (Error.mk 1)) := by
  have hjoin : Text.join ['\n'] [text] = text := by simp [Text.join]
  rcases h.standsFor_or_fails with ⟨bytes, hbytes⟩ | ⟨stop, hfails⟩
  · have hok := @ofText_eq_ok_of_standsFor (List Char) id (fun _ => bytes) [text]
      (by simpa using hline) (by simpa using hbytes)
    rw [List.map_id, hjoin, List.flatMap_singleton] at hok
    exact .inl ⟨bytes, hbytes, hok⟩
  · have herror := @ofText_of_fails text stop (List Char) id (fun _ => []) [] []
      (by simp) hline (by simp) (by simp) hfails
    rw [List.map_nil, List.nil_append, hjoin] at herror
    exact .inr ⟨stop, hfails, herror⟩

end Free

/-! ## Texts -/

section Texts

variable {lines : List String} {line : String} {output : List UInt8}

theorem toList_intercalate_lines (lines : List String) :
    ("\n".intercalate lines).toList = Text.join ['\n'] (lines.map String.toList) :=
  String.toList_intercalate

/-- A line without labels that assembles stands for its output. -/
theorem Line.IsFree.standsFor_of_assemble (h : Line.IsFree line.toList)
    (hline : '\n' ∉ line.toList) (hok : assemble line = .ok output) :
    (Line.ofText line.toList).StandsFor output := by
  rcases h.ofText_cases hline with ⟨bytes, hbytes, hok'⟩ | ⟨stop, -, herror⟩
  · obtain rfl := Except.ok.inj (hok'.symm.trans hok)
    exact hbytes
  · cases herror.symm.trans hok

theorem Line.IsFree.fails_of_assemble {stop : Stop Error} (h : Line.IsFree line.toList)
    (hline : '\n' ∉ line.toList) (herror : assemble line = .error stop) (l : Layout) (n : Nat) :
    l.addLine n line.toList = .error (stop.map Error.cause) := by
  rcases h.ofText_cases hline with ⟨bytes, -, hok⟩ | ⟨stop', hfails, herror'⟩
  · cases hok.symm.trans herror
  · obtain rfl := Except.error.inj (herror'.symm.trans herror)
    have hsame : (stop'.map (Error.mk 1)).map Error.cause = stop' := by
      cases stop' <;> rfl
    rw [hsame]
    exact hfails l n

/-- Lines without labels assemble to their outputs one after the other, and they fail like the
first of them that fails, with the number of that line.  And no text fails because of a label that
is not defined while one of its lines is not in order by itself or two of them define one label. -/
theorem assembles_linewise
    (hlines : ∀ line ∈ lines, '\n' ∉ line.toList ∧ Line.IsFree line.toList) :
    (∀ outputs, lines.mapM assemble = .ok outputs →
      assemble ("\n".intercalate lines) = .ok outputs.flatten) ∧
    (∀ front line back stop, lines = front ++ line :: back →
      (∀ x ∈ front, ∃ output, assemble x = .ok output) → assemble line = .error stop →
      assemble ("\n".intercalate lines) =
        .error (stop.map fun e => ⟨front.length + 1, e.cause⟩)) ∧
    ∀ source : String,
      (∃ line ∈ Text.split '\n' source.toList, ∃ stop, ofText line = .error stop ∧
        stop.any Error.isUndefined = false) ∨
      ¬(Text.split '\n' source.toList).Pairwise
        (fun x y => ∀ name, Line.Defines x name → ¬Line.Defines y name) →
      ∃ stop, assemble source = .error stop ∧ stop.any Error.isUndefined = false := by
  have hstands : ∀ line ∈ lines, ∀ output, assemble line = .ok output →
      (Line.ofText line.toList).StandsFor output := by
    intro line hmem output hok
    obtain ⟨hline, hfree⟩ := hlines line hmem
    exact hfree.standsFor_of_assemble hline hok
  refine ⟨?_, ?_, ?_⟩
  · intro outputs houtputs
    obtain ⟨hlength, hzip⟩ := List.forall₂_iff_zip.mp (forall₂_of_mapM_eq_ok houtputs)
    have hmem : ∀ x ∈ lines.zip outputs, x.1 ∈ lines := fun x hx => (List.of_mem_zip hx).1
    have hpairs : ∀ x ∈ lines.zip outputs, (Line.ofText x.1.toList).StandsFor x.2 :=
      fun x hx => hstands x.1 (hmem x hx) x.2 (hzip hx)
    have hok := ofText_eq_ok_of_standsFor (fun x hx => (hlines x.1 (hmem x hx)).1) hpairs
    have hfirst : (lines.zip outputs).map (fun x => x.1.toList) = lines.map String.toList := by
      rw [← Function.comp_def String.toList Prod.fst, ← List.map_map,
        List.map_fst_zip (Nat.le_of_eq hlength)]
    rw [hfirst, List.flatMap_def, List.map_snd_zip (Nat.le_of_eq hlength.symm)] at hok
    rw [assemble, toList_intercalate_lines]
    exact hok
  · rintro front line back stop rfl hfront herror
    obtain ⟨hhere, hfree⟩ := hlines line (by simp)
    choose! output houtput using hfront
    have hbytes : ∀ x ∈ front, (Line.ofText x.toList).StandsFor (output x) := fun x hx =>
      hstands x (List.mem_append_left _ hx) _ (houtput x hx)
    rw [assemble, toList_intercalate_lines, List.map_append, List.map_cons,
      ← Stop.map_map (Error.mk (front.length + 1)) Error.cause]
    refine ofText_of_fails (fun x hx => (hlines x (List.mem_append_left _ hx)).1) hhere ?_ hbytes
      (hfree.fails_of_assemble hhere herror)
    intro x hx
    obtain ⟨y, hy, rfl⟩ := List.mem_map.mp hx
    exact (hlines y (by simp [hy])).1
  · intro source hwrong
    cases hlaid : Layout.addLines {} ((Text.split '\n' source.toList).zipIdx 1) with
    | error stop =>
        refine ⟨stop, ?_, Layout.failsWith_addLines stop hlaid⟩
        rw [assemble, ofText, hlaid]
        rfl
    | ok l =>
        obtain ⟨halone, hpairwise⟩ := Layout.lines_of_addLines hlaid
        rcases hwrong with ⟨text, htext, stop, herror, hcause⟩ | htwice
        · rw [halone text htext stop herror] at hcause
          cases hcause
        · exact absurd hpairwise htwice

/-- Three lines of which the last one fails, the first two of them, and a text in which a label is
not defined and another line is wrong. -/
theorem assembles_linewise_three :
    assemble "inc ax\ndb 1, 2" = .ok [0x44, 0x06, 1, 2] ∧
      assemble "inc ax\ndb 1, 2\ndb 300" = .error (.fault ⟨3, .valueOutOfRange 300⟩) ∧
      ∃ stop, assemble "jmp out\ninc" = .error stop ∧ stop.any Error.isUndefined = false := by
  have hall : ∀ line ∈ ["inc ax", "db 1, 2", "db 300"], '\n' ∉ line.toList ∧
      (Line.ofText line.toList).label = none ∧
      ∀ s ∈ (Statement.parse (Line.ofText line.toList).body).toOption, s.slots = [] := by decide
  have hfree : ∀ line ∈ ["inc ax", "db 1, 2", "db 300"],
      '\n' ∉ line.toList ∧ Line.IsFree line.toList := by
    intro line hmem
    obtain ⟨hline, hlabel, hslots⟩ := hall line hmem
    refine ⟨hline, ⟨fun label hsome => ?_, fun s hs name hname => ?_⟩⟩
    · rw [hlabel] at hsome
      cases hsome
    · rw [hslots s (by rw [hs]; rfl)] at hname
      cases hname
  have hfront : ∀ line ∈ ["inc ax", "db 1, 2"], '\n' ∉ line.toList ∧ Line.IsFree line.toList :=
    fun line hmem => hfree line (List.mem_append_left ["db 300"] hmem)
  obtain ⟨hok, -, -⟩ := assembles_linewise hfront
  obtain ⟨-, hfails, hlabels⟩ := assembles_linewise hfree
  refine ⟨hok [[0x44, 0x06], [1, 2]] rfl, ?_, hlabels _ (.inl ?_)⟩
  · refine hfails ["inc ax", "db 1, 2"] "db 300" [] (.fault ⟨1, .valueOutOfRange 300⟩) rfl ?_ rfl
    intro x hx
    rcases List.mem_pair.mp hx with rfl | rfl
    · exact ⟨[0x44, 0x06], rfl⟩
    · exact ⟨[1, 2], rfl⟩
  · exact ⟨"inc".toList, by decide, .fault ⟨1, .operandCount .inc 0⟩, rfl, rfl⟩

end Texts
end Assembly
end CoreWar
