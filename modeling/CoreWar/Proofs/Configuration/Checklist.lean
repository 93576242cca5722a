import CoreWar.Match.Configuration
import CoreWar.Proofs.FirstFailure
import CoreWar.Proofs.Json.Values

/-!
# The checks of a configuration, in order

What a configuration is read from is written down here without any failure: `intOf`,
`settingsOf` and the like give a value to every object, which only means something if
the checks before have passed.  With these values each reader has its list of checks,
and the lists in sequence are `checksOf`, by which `ofJson` goes (`decides_ofJson`).
-/

namespace CoreWar
namespace Configuration

open Checks

variable {o : Members} {field : String}

/-! ## Numbers -/

/-- The integer in a field; zero if there is none. -/
def intOf (o : Members) (field : String) : Int :=
  match Json.field? o field with
  | some (.number (.integer n)) => n
  | _ => 0

/-- The double in a field; zero if there is none. -/
def realOf (o : Members) (field : String) : Float :=
  match Json.field? o field with
  | some (.number n) => n.toFloat
  | _ => 0

/-- The checks of a required integer within bounds. -/
def intChecks (o : Members) (field : String) (least most : Int) : List (Check Error) :=
  [⟨Json.field? o field ≠ none, .missing field⟩,
    ⟨∃ n, Json.field? o field = some (.number (.integer n)), .malformed field .notInteger⟩,
    ⟨intOf o field < 0x8000000000000000, .outOfRange field (.above most)⟩,
    ⟨least ≤ intOf o field ∧ intOf o field ≤ most,
      .outOfRange field (.integer (intOf o field) least most)⟩]

/-- The checks of a required number within bounds. -/
def realChecks (o : Members) (field : String) (least most : Nat) : List (Check Error) :=
  [⟨Json.field? o field ≠ none, .missing field⟩,
    ⟨∃ n, Json.field? o field = some (.number n), .malformed field .notNumber⟩,
    ⟨Float.ofNat least ≤ realOf o field ∧ realOf o field ≤ Float.ofNat most,
      .outOfRange field (.real (realOf o field) least most)⟩]

/-- Only a number can be an integer. -/
theorem decides_readInt_of_not_integer {v : Json} {least most : Int}
    {P : { n : Int // least ≤ n ∧ n ≤ most } → Prop}
    (hv : Json.field? o field = some v) (hint : ∀ n, v ≠ .number (.integer n)) :
    Decides (intChecks o field least most) (readInt o field least most) P := by
  have hint64 : v.int64? = none := by
    unfold Json.int64?
    split
    next n => exact absurd rfl (hint n)
    · rfl
  have hnat : v.nat? = none := by
    unfold Json.nat?
    split
    next n => exact absurd rfl (hint n)
    · rfl
  have hread : readInt o field least most = .error (.malformed field .notInteger) := by
    simp [readInt, hv, hint64, hnat]
  rw [hread]
  refine .of_error (.later (by simp [hv]) (.here ?_))
  rintro ⟨n, hn⟩
  rw [hv] at hn
  exact hint n (Option.some.inj hn)

theorem decides_readInt (o : Members) (field : String) (least most : Int) :
    Decides (intChecks o field least most) (readInt o field least most)
      fun n => n.val = intOf o field := by
  cases hv : Json.field? o field with
  | none =>
      have hread : readInt o field least most = .error (.missing field) := by
        simp [readInt, hv]
      rw [hread]
      exact .of_error (.here (by simp [hv]))
  | some v =>
      by_cases hint : ∃ n, v = .number (.integer n)
      · obtain ⟨n, rfl⟩ := hint
        have hn : intOf o field = n := by simp [intOf, hv]
        rw [intChecks, hn]
        refine .cons (by simp [hv]) (.cons ⟨n, hv⟩ ?_)
        by_cases hsmall : n < 0x8000000000000000
        · refine .cons hsmall ?_
          by_cases hrange : least ≤ n ∧ n ≤ most
          · have hread : readInt o field least most = .ok ⟨n, hrange⟩ := by
              simp [readInt, hv, Json.int64?, hsmall, hrange]
            rw [hread]
            exact .cons hrange (.of_ok allHold_nil rfl)
          · have hread : readInt o field least most =
                .error (.outOfRange field (.integer n least most)) := by
              simp [readInt, hv, Json.int64?, hsmall, hrange]
            rw [hread]
            exact .of_error (.here hrange)
        · have hnat : 0 ≤ n := by omega
          have hread : readInt o field least most = .error (.outOfRange field (.above most)) := by
            simp [readInt, hv, Json.int64?, Json.nat?, hsmall, hnat]
          rw [hread]
          exact .of_error (.here hsmall)
      · exact decides_readInt_of_not_integer hv fun n hn => hint ⟨n, hn⟩

theorem decides_readNat (o : Members) (field : String) (least most : Nat) :
    Decides (intChecks o field least most) (readNat o field least most)
      (· = (intOf o field).toNat) :=
  (decides_readInt o field least most).map fun _ hn => congrArg Int.toNat hn

theorem decides_readReal (o : Members) (field : String) (least most : Nat) :
    Decides (realChecks o field least most) (readReal o field least most)
      (· = realOf o field) := by
  unfold readReal
  split
  next hv => exact .of_error (.here (by simp [hv]))
  next v hv =>
    split
    next x hx =>
      obtain ⟨n, rfl, rfl⟩ : ∃ n, v = .number n ∧ n.toFloat = x := by
        unfold Json.float? at hx
        split at hx
        next n => exact ⟨n, rfl, Option.some.inj hx⟩
        · cases hx
      have hreal : realOf o field = n.toFloat := by simp [realOf, hv]
      rw [realChecks, hreal]
      refine .cons (by simp [hv]) (.cons ⟨n, hv⟩ ?_)
      split
      next hrange => exact .cons hrange (.of_ok allHold_nil rfl)
      next hrange => exact .of_error (.here hrange)
    next hnone =>
      refine .of_error (.later (by simp [hv]) (.here ?_))
      rintro ⟨n, hn⟩
      rw [hv] at hn
      cases hn
      cases hnone

/-! ## Costs -/

/-- A field is absent or null, or its value is of some kind. -/
def Optional (o : Members) (field : String) (P : Json → Prop) : Prop :=
  ∀ v, Json.field? o field = some v → v = .null ∨ P v

theorem optional_of_none {P : Json → Prop} (h : Json.field? o field = none) :
    Optional o field P := by
  simp [Optional, h]

theorem optional_of_null {P : Json → Prop} (h : Json.field? o field = some .null) :
    Optional o field P := by
  simp [Optional, h]

theorem optional_iff_of_some {P : Json → Prop} {v : Json} (h : Json.field? o field = some v)
    (hv : v ≠ .null) : Optional o field P ↔ P v := by
  simp [Optional, h, hv]

/-- The members of the object that sets costs. -/
def costMembers (o : Members) : Members :=
  match Json.field? o "cycles" with
  | some (.object costs) => costs
  | _ => []

/-- The operation that a name in any case stands for. -/
def namedOpcode? (name : String) : Option Opcode :=
  Opcode.ofName? (String.ofList (Text.upper name.toList))

/-- The checks of a cost and its name. -/
def costChecks (costs : Members) (name : String) : List (Check Error) :=
  ⟨namedOpcode? name ≠ none, .malformed s!"cycles.{name}" .unknownOpcode⟩ ::
    withErrors (·.withField s!"cycles.{name}") (intChecks costs name 1 0xFFFFFFFF)

/-- The checks of all costs, in the order of their names. -/
def tableChecks (o : Members) : List (Check Error) :=
  ⟨Optional o "cycles" fun v => ∃ costs, v = .object costs, .malformed "cycles" .notObject⟩ ::
    ((Json.entries (costMembers o)).map Prod.fst).flatMap (costChecks (costMembers o))

theorem decides_addCost (costs : Members) (t : CostTable) (name : String) :
    Decides (costChecks costs name) (addCost costs t name) fun _ => True := by
  unfold addCost
  dsimp only
  split
  next hop => exact .of_error (.here (by simp [namedOpcode?, hop]))
  next op hop =>
    have hname : namedOpcode? name ≠ none := by simp [namedOpcode?, hop]
    have hcost : Decides (intChecks costs name 1 0xFFFFFFFF) (readCost costs name) fun _ => True :=
      (decides_readInt costs name 1 0xFFFFFFFF).map fun _ _ => trivial
    obtain ⟨hall, c, hc, -⟩ | ⟨e, hfirst, he⟩ := hcost.result
    · rw [hc]
      exact .of_ok (allHold_cons.mpr ⟨hname, allHold_withErrors.mpr hall⟩) trivial
    · rw [he]
      exact .of_error (.later hname hfirst.withErrors)

theorem decides_readCosts (o : Members) :
    Decides (tableChecks o) (readCosts o) fun _ => True := by
  unfold readCosts
  split
  next hnone =>
    have hmembers : costMembers o = [] := by simp [costMembers, hnone]
    rw [tableChecks, hmembers]
    exact .cons (optional_of_none hnone) (.of_ok allHold_nil trivial)
  next hnull =>
    have hmembers : costMembers o = [] := by simp [costMembers, hnull]
    rw [tableChecks, hmembers]
    exact .cons (optional_of_null hnull) (.of_ok allHold_nil trivial)
  next costs hcosts =>
    have hobject : Optional o "cycles" fun v => ∃ costs, v = .object costs :=
      (optional_iff_of_some hcosts (by simp)).mpr ⟨costs, rfl⟩
    have hmembers : costMembers o = costs := by simp [costMembers, hcosts]
    have hloop : Decides _ (((Json.entries costs).map Prod.fst).foldlM (addCost costs) .ones)
        fun _ => True := .foldlM fun t name _ => decides_addCost costs t name
    rw [tableChecks, hmembers]
    exact .cons hobject hloop
  next v hnull hobject hv =>
    refine .of_error (.here fun hoptional => ?_)
    obtain ⟨costs, hcosts⟩ := (optional_iff_of_some hv hnull).mp hoptional
    exact hobject costs hcosts

/-! ## Players -/

/-- The entries of players, as far as there are any. -/
def entriesOf (o : Members) : List Json :=
  match Json.field? o "player_settings" with
  | some (.array entries) => entries
  | _ => []

/-- The settings of the player with an index, under the default name if they have none. -/
def settingsOf (entries : List Json) (index : Nat) : PlayerSettings :=
  PlayerSettings.named
    (match entries[index]? with
    | none | some .null => {}
    | some v => (PlayerSettings.ofJson? v).getD {})
    (index + 1)

/-- The entry of a player, if there is one that is not null, can be read. -/
def entryCheck (entries : List Json) (index : Nat) : Check Error :=
  ⟨∀ v, entries[index]? = some v → v = .null ∨ PlayerSettings.ofJson? v ≠ none,
    .malformed (playerField index) .notSettings⟩

/-- The checks of a player. -/
def playerChecks (entries : List Json) (index : Nat) : List (Check Error) :=
  [entryCheck entries index,
    ⟨0 ≤ (settingsOf entries index).modifier ∧
        (settingsOf entries index).modifier ≤ Float.ofNat PlayerSettings.maxModifier,
      .outOfRange s!"{playerField index}.cycle_modifer" (.modifier PlayerSettings.maxModifier)⟩,
    ⟨1 ≤ (settingsOf entries index).maxThreads,
      .outOfRange s!"{playerField index}.max_threads" .noThreads⟩]

/-- What has the entries of players is an array. -/
def entriesCheck (o : Members) : Check Error :=
  ⟨Optional o "player_settings" fun v => ∃ entries, v = .array entries,
    .malformed "player_settings" .notArray⟩

/-- The checks of a number of players. -/
def playersChecks (o : Members) (count : Nat) : List (Check Error) :=
  entriesCheck o :: (List.range count).flatMap (playerChecks (entriesOf o))

theorem decides_givenPlayer (entries : List Json) (index : Nat) :
    Decides [entryCheck entries index] (givenPlayer entries index)
      fun s => s.named (index + 1) = settingsOf entries index := by
  unfold givenPlayer entryCheck
  split
  next hnone => exact .of_ok (by simp [hnone]) (by simp [settingsOf, hnone])
  next hnull => exact .of_ok (by simp [hnull]) (by simp [settingsOf, hnull])
  next v hnull hv =>
    split
    next s hs => exact .of_ok (by simp [hv, hs]) (by simp [settingsOf, hv, hs])
    next hunreadable =>
      refine .of_error (.here fun hreadable => ?_)
      obtain hv | hsome := hreadable v hv
      · exact hnull hv
      · exact hsome hunreadable

theorem decides_readPlayer (entries : List Json) (index : Nat) :
    Decides (playerChecks entries index) (readPlayer entries index)
      (· = settingsOf entries index) := by
  refine (decides_givenPlayer entries index).bind fun s _ hs => ?_
  rw [hs]
  unfold checkPlayer
  split
  next hmodifier =>
    simp only [Bool.not_eq_true', Bool.and_eq_false_iff, decide_eq_false_iff_not] at hmodifier
    exact .of_error (.here (not_and_or.mpr hmodifier))
  next hmodifier =>
    simp only [Bool.not_eq_true, Bool.not_eq_false', Bool.and_eq_true, decide_eq_true_eq]
      at hmodifier
    refine .cons hmodifier ?_
    split
    next hthreads => exact .of_error (.here (by simp [hthreads]))
    next hthreads => exact .cons (Nat.pos_of_ne_zero hthreads) (.of_ok allHold_nil rfl)

theorem decides_readPlayers (o : Members) (count : Nat) :
    Decides (playersChecks o count) (readPlayers o count)
      (· = (List.range count).map (settingsOf (entriesOf o))) := by
  have hentries : Decides [entriesCheck o] (playerEntries o) (· = entriesOf o) := by
    unfold playerEntries
    split
    next hnone =>
      exact .cons (optional_of_none hnone) (.of_ok allHold_nil (by simp [entriesOf, hnone]))
    next hnull =>
      exact .cons (optional_of_null hnull) (.of_ok allHold_nil (by simp [entriesOf, hnull]))
    next entries hentries =>
      have harray : Optional o "player_settings" fun v => ∃ entries, v = .array entries :=
        (optional_iff_of_some hentries (by simp)).mpr ⟨entries, rfl⟩
      exact .cons harray (.of_ok allHold_nil (by simp [entriesOf, hentries]))
    next v hnull harray hv =>
      refine .of_error (.here fun hoptional => ?_)
      obtain ⟨entries, hentries⟩ := (optional_iff_of_some hv hnull).mp hoptional
      exact harray entries hentries
  refine hentries.bind fun entries _ hsame => ?_
  rw [hsame]
  exact .mapM fun index _ => decides_readPlayer (entriesOf o) index

/-! ## Programs -/

/-- The texts of the programs. -/
def textsOf (o : Members) : List Json :=
  match Json.field? o "warriors" with
  | some (.array texts) => texts
  | _ => []

/-- The program of the player with an index; empty if it cannot be read. -/
def programOf (texts : List Json) (index : Nat) : List UInt8 :=
  match texts[index]? with
  | some (.string text) => (Base64.decode? text.toList).getD []
  | _ => []

/-- The player with an index. -/
def contestantOf (o : Members) (index : Nat) : Contestant :=
  ⟨settingsOf (entriesOf o) index, programOf (textsOf o) index⟩

/-- The checks of a program; the last of them gives the name of its player. -/
def programChecks (o : Members) (index : Nat) : List (Check Error) :=
  [⟨∃ text, (textsOf o)[index]? = some (.string text), .malformed s!"warriors[{index}]" .notText⟩,
    ⟨∃ text, (textsOf o)[index]? = some (.string text) ∧ Base64.decode? text.toList ≠ none,
      .malformed s!"warriors[{index}]" .notBase64⟩,
    ⟨(contestantOf o index).program ≠ [],
      .malformed s!"warriors[{index}]" (.emptyProgram (contestantOf o index).settings.name)⟩]

/-- The checks of the texts of a number of programs. -/
def textsChecks (o : Members) (count : Nat) : List (Check Error) :=
  [⟨Json.field? o "warriors" ≠ none, .missing "warriors"⟩,
    ⟨∃ texts, Json.field? o "warriors" = some (.array texts), .malformed "warriors" .notArray⟩,
    ⟨count ≤ (textsOf o).length,
      .malformed "warriors" (.programCount count (textsOf o).length)⟩]

/-- The checks of the programs of a number of players. -/
def programsChecks (o : Members) (count : Nat) : List (Check Error) :=
  textsChecks o count ++ (List.range count).flatMap (programChecks o)

theorem decides_programTexts (o : Members) (count : Nat) :
    Decides (textsChecks o count) (programTexts o count) (· = textsOf o) := by
  unfold programTexts textsChecks
  split
  next hnone => exact .of_error (.here (by simp [hnone]))
  next texts hsome =>
    have htexts : textsOf o = texts := by simp [textsOf, hsome]
    rw [htexts]
    refine .cons (by simp [hsome]) (.cons ⟨texts, hsome⟩ ?_)
    split
    next hfew => exact .of_error (.here (Nat.not_le_of_lt hfew))
    next hfew => exact .cons (Nat.le_of_not_lt hfew) (.of_ok allHold_nil rfl)
  next v harray hsome =>
    refine .of_error (.later (by simp [hsome]) (.here ?_))
    rintro ⟨texts, htexts⟩
    rw [hsome] at htexts
    exact harray texts (Option.some.inj htexts)

theorem decides_readProgram {index : Nat} {v : Json} (hv : (textsOf o)[index]? = some v) :
    Decides (programChecks o index) (readProgram ((settingsOf (entriesOf o) index, v), index))
      (· = contestantOf o index) := by
  have hprogram (text : String) (program : List UInt8) (htext : v = .string text)
      (hdecode : Base64.decode? text.toList = some program) :
      contestantOf o index = ⟨settingsOf (entriesOf o) index, program⟩ := by
    simp [contestantOf, programOf, hv, htext, hdecode]
  unfold readProgram
  dsimp only
  split
  next hnone =>
    refine .of_error (.here ?_)
    rintro ⟨text, htext⟩
    rw [hv] at htext
    cases htext
    cases hnone
  next text htext =>
    have htext : v = .string text := by
      unfold Json.string? at htext
      split at htext
      next s => rw [Option.some.inj htext]
      · cases htext
    refine .cons ⟨text, by rw [hv, htext]⟩ ?_
    split
    next hdecode =>
      refine .of_error (.here ?_)
      rintro ⟨text', htext', hdecode'⟩
      rw [hv, htext] at htext'
      cases htext'
      exact hdecode' hdecode
    next hdecode =>
      have hcontestant := hprogram text [] htext hdecode
      refine .cons ⟨text, by rw [hv, htext], by simp [hdecode]⟩ ?_
      rw [hcontestant]
      exact .of_error (.here (by simp))
    next program hne hdecode =>
      have hcontestant := hprogram text program htext hdecode
      refine .cons ⟨text, by rw [hv, htext], by simp [hdecode]⟩ ?_
      rw [hcontestant]
      exact .of_ok (by simpa using hne) rfl

/-- Players are matched with as many texts as there are players. -/
theorem zipIdx_zip_eq {count : Nat} (h : count ≤ (textsOf o).length) :
    (((List.range count).map (settingsOf (entriesOf o))).zip (textsOf o)).zipIdx =
      (List.range count).map fun index =>
        ((settingsOf (entriesOf o) index, (textsOf o)[index]?.getD .null), index) := by
  apply List.ext_getElem
  · simp [h]
  · intro index hleft hright
    have hlt : index < count := by simpa using hright
    simp [List.getElem?_eq_getElem (Nat.lt_of_lt_of_le hlt h)]

theorem decides_readPrograms (o : Members) (count : Nat) :
    Decides (programsChecks o count)
      (readPrograms o ((List.range count).map (settingsOf (entriesOf o))))
      (· = (List.range count).map (contestantOf o)) := by
  have htexts := decides_programTexts o count
  unfold readPrograms
  rw [List.length_map, List.length_range]
  refine htexts.bind fun texts hall hsame => ?_
  have hmany : count ≤ (textsOf o).length := by
    simp only [textsChecks, allHold_cons] at hall
    exact hall.2.2.1
  rw [hsame, zipIdx_zip_eq hmany, List.mapM_map]
  refine .mapM fun index hindex => decides_readProgram ?_
  have hlt : index < (textsOf o).length :=
    Nat.lt_of_lt_of_le (List.mem_range.mp hindex) hmany
  simp [List.getElem?_eq_getElem hlt]

/-! ## Sizes -/

/-- The number of players. -/
def countOf (o : Members) : Nat := (intOf o "num_players").toNat

/-- The players that a configuration describes. -/
def contestantsOf (o : Members) : List Contestant :=
  (List.range (countOf o)).map (contestantOf o)

/-- The largest program that a player may enter: an even share of the arena unless a
size is set. -/
def capOf (o : Members) : Nat :=
  if intOf o "max_player_size" = 0 then
    Arena.size / countOf o
  else
    (intOf o "max_player_size").toNat

/-- The checks of a size that may be set but not be null. -/
def capChecks (o : Members) : List (Check Error) :=
  match Json.field? o "max_player_size" with
  | none => []
  | some _ => intChecks o "max_player_size" 0 Arena.size

/-- The checks of the sizes of programs, one by one and together with those before. -/
def sizeChecks (most total : Nat) : List Contestant → List (Check Error)
  | [] => []
  | c :: cs =>
    ⟨c.program.length ≤ most, .programTooLarge c.settings.name c.program.length most⟩ ::
      ⟨total + c.program.length ≤ Arena.size, .arenaOverflow (total + c.program.length)⟩ ::
      sizeChecks most (total + c.program.length) cs

theorem decides_readMaxProgramSize (o : Members) :
    Decides (capChecks o) (readMaxProgramSize o (countOf o)) (· = capOf o) := by
  have hgiven : Decides (capChecks o) (givenProgramSize o)
      fun n => n = (intOf o "max_player_size").toNat ∧ 0 ≤ intOf o "max_player_size" := by
    cases hv : Json.field? o "max_player_size" with
    | none =>
        have hchecks : capChecks o = [] := by simp [capChecks, hv]
        have hsize : givenProgramSize o = .ok 0 := by simp [givenProgramSize, hv]
        rw [hchecks, hsize]
        exact .of_ok allHold_nil (by simp [intOf, hv])
    | some v =>
        have hchecks : capChecks o = intChecks o "max_player_size" 0 Arena.size := by
          simp [capChecks, hv]
        have hsize : givenProgramSize o = readNat o "max_player_size" 0 Arena.size := by
          simp [givenProgramSize, hv]
        rw [hchecks, hsize]
        refine (decides_readInt o "max_player_size" 0 Arena.size).map fun n hn => ?_
        rw [← hn]
        exact ⟨rfl, n.property.1⟩
  unfold readMaxProgramSize
  rw [← List.append_nil (capChecks o)]
  refine hgiven.bind fun n _ hn => .of_ok allHold_nil ?_
  obtain ⟨rfl, hpos⟩ := hn
  have hzero : (intOf o "max_player_size").toNat = 0 ↔ intOf o "max_player_size" = 0 := by omega
  simp only [capOf, hzero]

theorem decides_addPrograms (most total : Nat) (cs : List Contestant) :
    Decides (sizeChecks most total cs) (cs.foldlM (addProgram most) total) fun _ => True := by
  induction cs generalizing total with
  | nil => exact .of_ok allHold_nil trivial
  | cons c cs ih =>
      rw [List.foldlM_cons]
      unfold addProgram sizeChecks
      split
      next hlarge => exact .of_error (.here (Nat.not_le_of_lt hlarge))
      next hlarge =>
        refine .cons (Nat.le_of_not_lt hlarge) ?_
        split
        next hfull => exact .of_error (.here (Nat.not_le_of_lt hfull))
        next hfull => exact .cons (Nat.le_of_not_lt hfull) (ih _)

/-! ## All checks -/

/-- The check of the seed. -/
def seedChecks (o : Members) : List (Check Error) :=
  [⟨Optional o "seed" fun v =>
      ∃ n, v = .number (.integer n) ∧ 0 ≤ n ∧ n < 0x10000000000000000,
    .malformed "seed" .notUnsigned⟩]

theorem decides_readSeed (h : Json.Fits (.object o)) :
    Decides (seedChecks o) (readSeed o) fun _ => True := by
  unfold readSeed
  split
  next hnone => exact .cons (optional_of_none hnone) (.of_ok allHold_nil trivial)
  next hnull => exact .cons (optional_of_null hnull) (.of_ok allHold_nil trivial)
  next v hnull hv =>
    have hseed := optional_iff_of_some
      (P := fun v => ∃ n, v = .number (.integer n) ∧ 0 ≤ n ∧ n < 0x10000000000000000) hv hnull
    have hfits := h.field? hv
    unfold Json.nat?
    split
    next n hn =>
      split at hn
      next k =>
        split at hn
        next hpos =>
          cases hfits with
          | number hk => exact .cons (hseed.mpr ⟨k, rfl, hpos, hk.2⟩) (.of_ok allHold_nil trivial)
        · cases hn
      · cases hn
    next hn =>
      refine .of_error (.here fun hunsigned => ?_)
      obtain ⟨k, rfl, hpos, -⟩ := hseed.mp hunsigned
      simp [hpos] at hn

/-- The checks of the members of a configuration, in order. -/
def objectChecks (o : Members) : List (Check Error) :=
  [intChecks o "num_players" 1 255,
    intChecks o "cycles_per_turn" 1 65535,
    intChecks o "max_cycles" 1 0x7FFFFFFFFFFFFFFF,
    intChecks o "score_for_killing_thread" 0 0xFFFFFFFF,
    intChecks o "score_for_killing_process" 0 0xFFFFFFFF,
    realChecks o "score_for_owning_ram" 0 0xFFFFFFFF,
    tableChecks o,
    playersChecks o (countOf o),
    programsChecks o (countOf o),
    capChecks o,
    sizeChecks (capOf o) 0 (contestantsOf o),
    seedChecks o].flatten

/-- The members of a configuration; none if it is not an object. -/
def membersOf : Json → Members
  | .object o => o
  | _ => []

/-- The checks of a configuration, in order. -/
def checksOf (v : Json) : List (Check Error) :=
  ⟨∃ o, v = .object o, .malformed "config" .notRootObject⟩ :: objectChecks (membersOf v)

theorem decides_object (h : Json.Fits (.object o)) :
    Decides (objectChecks o) (ofJson (.object o)) (·.contestants = contestantsOf o) := by
  unfold ofJson objectChecks
  simp only [List.flatten_cons, List.flatten_nil]
  refine (decides_readNat o _ 1 255).bind fun count _ hcount => ?_
  refine (decides_readNat o _ 1 65535).bind fun cyclesPerTurn _ _ => ?_
  refine (decides_readNat o _ 1 0x7FFFFFFFFFFFFFFF).bind fun maxCycles _ _ => ?_
  refine (decides_readNat o _ 0 0xFFFFFFFF).bind fun threadScore _ _ => ?_
  refine (decides_readNat o _ 0 0xFFFFFFFF).bind fun processScore _ _ => ?_
  refine (decides_readReal o _ 0 0xFFFFFFFF).bind fun memoryScore _ _ => ?_
  refine (decides_readCosts o).bind fun costs _ _ => ?_
  obtain rfl : count = countOf o := hcount
  refine (decides_readPlayers o (countOf o)).bind fun players _ hplayers => ?_
  rw [hplayers]
  refine (decides_readPrograms o (countOf o)).bind fun contestants _ hcontestants => ?_
  obtain rfl : contestants = contestantsOf o := hcontestants
  refine (decides_readMaxProgramSize o).bind fun most _ hmost => ?_
  rw [hmost]
  refine (decides_addPrograms (capOf o) 0 (contestantsOf o)).bind fun _ _ _ => ?_
  exact (decides_readSeed h).bind fun seed _ _ => .of_ok allHold_nil rfl

theorem decides_ofJson {v : Json} (h : v.Fits) :
    Decides (checksOf v) (ofJson v) (·.contestants = contestantsOf (membersOf v)) := by
  cases v with
  | object o => exact .cons ⟨o, rfl⟩ (decides_object h)
  | null => exact .of_error (.here (by simp))
  | bool b => exact .of_error (.here (by simp))
  | number n => exact .of_error (.here (by simp))
  | string s => exact .of_error (.here (by simp))
  | array items => exact .of_error (.here (by simp))

/-- A text spells only values whose integers fit, so it is decided by the same checks. -/
theorem decides_ofText (text : String) :
    Decides
      (⟨Json.parse? text ≠ none, .notJson⟩ :: checksOf ((Json.parse? text).getD .null))
      (ofText text)
      (·.contestants = contestantsOf (membersOf ((Json.parse? text).getD .null))) := by
  unfold ofText
  split
  next v hv =>
    rw [hv]
    exact .cons (by simp) (decides_ofJson (Json.fits_of_parse? hv))
  next hnone => exact .of_error (.here (by simp [hnone]))

end Configuration
end CoreWar
