import CoreWar.Proofs.Configuration.Checklist
import CoreWar.Proofs.Configuration.WellFormed

/-!
# Which values are configurations

`Valid` says what the members of an object have to be for the object to describe a
match, without any order of checks.  A value is accepted exactly if it is such an
object, and any other value is refused with the error of the first check that fails
(`ofJson_decided`).

That the programs fit the arena is checked as a running total; no total before the
last one can be too large if the last is not (`allHold_sizeChecks_iff`).
-/

namespace CoreWar

namespace PlayerSettings

/-- A default name changes nothing but the name. -/
theorem named_keeps (s : PlayerSettings) (pid : Nat) :
    (s.named pid).modifier = s.modifier ∧ (s.named pid).maxThreads = s.maxThreads := by
  unfold named
  split
  · exact ⟨rfl, rfl⟩
  · exact ⟨rfl, rfl⟩

theorem name_named_ne (s : PlayerSettings) (pid : Nat) : (s.named pid).name ≠ "" := by
  unfold named
  split
  · intro hempty
    have hlength := congrArg String.length hempty
    simp [defaultName] at hlength
  next hname => simpa using hname

end PlayerSettings

namespace Configuration

open Checks

variable {o : Members} {field : String}

/-! ## Members of a valid configuration -/

/-- A field is an integer within bounds. -/
def HasInt (o : Members) (field : String) (least most : Int) : Prop :=
  ∃ n, Json.field? o field = some (.number (.integer n)) ∧ least ≤ n ∧ n ≤ most

/-- The settings that the entry of a player may give. -/
def ValidSettings (v : Json) : Prop :=
  ∃ s, PlayerSettings.ofJson? v = some s ∧
    (0 ≤ s.modifier ∧ s.modifier ≤ Float.ofNat 65535) ∧ 1 ≤ s.maxThreads

/-- Every name of an object stands for an operation and gives a cost. -/
def ValidCosts (costs : Members) : Prop :=
  ∀ name, Json.field? costs name ≠ none →
    namedOpcode? name ≠ none ∧ HasInt costs name 1 0xFFFFFFFF

/-- The entries of a number of players, as far as there are any, give settings or are
null. -/
def ValidEntries (count : Nat) (entries : List Json) : Prop :=
  ∀ i < count, ∀ v, entries[i]? = some v → v = .null ∨ ValidSettings v

/-- A value is the text of a program that is not empty. -/
def HasProgram (v : Json) : Prop :=
  ∃ text program, v = .string text ∧ Base64.decode? text.toList = some program ∧ program ≠ []

/-- The members of an object that describes a match. -/
structure Valid (o : Members) : Prop where
  numPlayers : HasInt o "num_players" 1 255
  cyclesPerTurn : HasInt o "cycles_per_turn" 1 65535
  maxCycles : HasInt o "max_cycles" 1 0x7FFFFFFFFFFFFFFF
  threadScore : HasInt o "score_for_killing_thread" 0 0xFFFFFFFF
  processScore : HasInt o "score_for_killing_process" 0 0xFFFFFFFF
  memoryScore : ∃ n, Json.field? o "score_for_owning_ram" = some (.number n) ∧
    Float.ofNat 0 ≤ n.toFloat ∧ n.toFloat ≤ Float.ofNat 0xFFFFFFFF
  cycles : Optional o "cycles" fun v => ∃ costs, v = .object costs ∧ ValidCosts costs
  players : Optional o "player_settings" fun v =>
    ∃ entries, v = .array entries ∧ ValidEntries (countOf o) entries
  programs : ∃ texts, Json.field? o "warriors" = some (.array texts) ∧
    countOf o ≤ texts.length ∧ ∀ i < countOf o, ∀ v, texts[i]? = some v → HasProgram v
  maxProgramSize : Json.field? o "max_player_size" = none ∨ HasInt o "max_player_size" 0 65536
  size : ∀ x ∈ contestantsOf o, x.program.length ≤ capOf o
  totalSize : (contestantsOf o).foldr (fun x total => x.program.length + total) 0 ≤ 65536
  seed : Optional o "seed" fun v =>
    ∃ n, v = .number (.integer n) ∧ 0 ≤ n ∧ n < 0x10000000000000000

/-! ## Numbers and costs -/

theorem HasInt.intOf {least most : Int} (h : HasInt o field least most) :
    Json.field? o field = some (.number (.integer (intOf o field))) ∧
      least ≤ intOf o field ∧ intOf o field ≤ most := by
  obtain ⟨n, hn, hleast, hmost⟩ := h
  have hint : Configuration.intOf o field = n := by simp [Configuration.intOf, hn]
  rw [hint]
  exact ⟨hn, hleast, hmost⟩

theorem allHold_intChecks_iff {least most : Int} (hmost : most < 0x8000000000000000) :
    AllHold (intChecks o field least most) ↔ HasInt o field least most := by
  simp only [intChecks, allHold_cons, allHold_nil, and_true]
  constructor
  · rintro ⟨-, ⟨n, hn⟩, -, hrange⟩
    have hint : intOf o field = n := by simp [intOf, hn]
    rw [hint] at hrange
    exact ⟨n, hn, hrange⟩
  · intro h
    obtain ⟨hn, hrange⟩ := h.intOf
    exact ⟨by simp [hn], ⟨_, hn⟩, by omega, hrange⟩

theorem allHold_realChecks_iff {least most : Nat} :
    AllHold (realChecks o field least most) ↔ ∃ n, Json.field? o field = some (.number n) ∧
      Float.ofNat least ≤ n.toFloat ∧ n.toFloat ≤ Float.ofNat most := by
  simp only [realChecks, allHold_cons, allHold_nil, and_true]
  constructor
  · rintro ⟨-, ⟨n, hn⟩, hrange⟩
    have hreal : realOf o field = n.toFloat := by simp [realOf, hn]
    rw [hreal] at hrange
    exact ⟨n, hn, hrange⟩
  · rintro ⟨n, hn, hrange⟩
    have hreal : realOf o field = n.toFloat := by simp [realOf, hn]
    rw [hreal]
    exact ⟨by simp [hn], ⟨n, hn⟩, hrange⟩

theorem allHold_costChecks_iff {costs : Members} {name : String} :
    AllHold (costChecks costs name) ↔
      namedOpcode? name ≠ none ∧ HasInt costs name 1 0xFFFFFFFF := by
  rw [costChecks, allHold_cons, allHold_withErrors, allHold_intChecks_iff (by decide)]

theorem Optional.imp {P Q : Json → Prop} (h : Optional o field P)
    (hPQ : ∀ v, Json.field? o field = some v → P v → Q v) : Optional o field Q := by
  intro v hv
  exact (h v hv).imp_right (hPQ v hv)

/-- What is checked of the value of an optional field may be checked of what is read from
it, if there is nothing to check where nothing is read. -/
theorem optional_and_iff {α : Type} {wrap : α → Json} {read : α} {Q : α → Prop}
    (hwrap : Function.Injective wrap) (hnull : ∀ a, wrap a ≠ .null)
    (hread : ∀ a, Json.field? o field = some (wrap a) → read = a)
    (hnothing : (∀ a, Json.field? o field ≠ some (wrap a)) → Q read) :
    ((Optional o field fun v => ∃ a, v = wrap a) ∧ Q read) ↔
      Optional o field fun v => ∃ a, v = wrap a ∧ Q a := by
  constructor
  · rintro ⟨hkind, hq⟩
    refine hkind.imp fun v hv => ?_
    rintro ⟨a, rfl⟩
    exact ⟨a, rfl, hread a hv ▸ hq⟩
  · intro h
    constructor
    · refine h.imp fun v _ => ?_
      rintro ⟨a, ha, -⟩
      exact ⟨a, ha⟩
    · by_cases hsome : ∃ a, Json.field? o field = some (wrap a)
      · obtain ⟨a, ha⟩ := hsome
        obtain ⟨a', hsame, hq⟩ := (optional_iff_of_some ha (hnull a)).mp h
        rw [hread a ha, hwrap hsame]
        exact hq
      · exact hnothing fun a ha => hsome ⟨a, ha⟩

theorem allHold_tableChecks_iff : AllHold (tableChecks o) ↔
    Optional o "cycles" fun v => ∃ costs, v = .object costs ∧ ValidCosts costs := by
  simp only [tableChecks, allHold_cons, allHold_flatMap, Json.mem_names_entries_iff,
    allHold_costChecks_iff]
  apply optional_and_iff (Q := ValidCosts) fun _ _ => Json.object.inj
  · intro costs
    exact Json.noConfusion
  · intro costs hcosts
    simp [costMembers, hcosts]
  · intro hnone name hname
    have hempty : costMembers o = [] := by
      unfold costMembers
      split
      next costs hcosts => exact absurd hcosts (hnone costs)
      · rfl
    rw [hempty] at hname
    exact absurd rfl hname

/-! ## Players -/

/-- The settings of a player who is given none are within bounds. -/
theorem default_within_bounds : (0 ≤ PlayerSettings.modifier {} ∧
      PlayerSettings.modifier {} ≤ Float.ofNat PlayerSettings.maxModifier) ∧
    1 ≤ PlayerSettings.maxThreads {} := by
  decide +kernel

theorem allHold_playerChecks_iff {entries : List Json} {i : Nat} :
    AllHold (playerChecks entries i) ↔
      ∀ v, entries[i]? = some v → v = .null ∨ ValidSettings v := by
  simp only [playerChecks, entryCheck, allHold_cons, allHold_nil, and_true]
  have hunset (hgiven : settingsOf entries i = PlayerSettings.named {} (i + 1)) :
      (0 ≤ (settingsOf entries i).modifier ∧
          (settingsOf entries i).modifier ≤ Float.ofNat PlayerSettings.maxModifier) ∧
        1 ≤ (settingsOf entries i).maxThreads := by
    obtain ⟨hmodifier, hthreads⟩ := PlayerSettings.named_keeps {} (i + 1)
    rw [hgiven, hmodifier, hthreads]
    exact default_within_bounds
  cases hv : entries[i]? with
  | none => simpa using hunset (by simp [settingsOf, hv])
  | some v =>
      by_cases hnull : v = .null
      · subst hnull
        simpa using hunset (by simp [settingsOf, hv])
      · cases hs : PlayerSettings.ofJson? v with
        | none => simp [hnull, hs, ValidSettings]
        | some s =>
            have hgiven : settingsOf entries i = s.named (i + 1) := by
              simp [settingsOf, hv, hs]
            obtain ⟨hmodifier, hthreads⟩ := s.named_keeps (i + 1)
            rw [hgiven, hmodifier, hthreads]
            simp [hnull, hs, ValidSettings, PlayerSettings.maxModifier]

theorem allHold_playersChecks_iff {count : Nat} : AllHold (playersChecks o count) ↔
    Optional o "player_settings" fun v =>
      ∃ entries, v = .array entries ∧ ValidEntries count entries := by
  simp only [playersChecks, entriesCheck, allHold_cons, allHold_flatMap, List.mem_range,
    allHold_playerChecks_iff]
  apply optional_and_iff (Q := ValidEntries count) fun _ _ => Json.array.inj
  · intro entries
    exact Json.noConfusion
  · intro entries hentries
    simp [entriesOf, hentries]
  · intro hnone i _ x hx
    have hempty : entriesOf o = [] := by
      unfold entriesOf
      split
      next entries hentries => exact absurd hentries (hnone entries)
      · rfl
    rw [hempty] at hx
    cases hx

/-! ## Programs and their sizes -/

theorem allHold_programChecks_iff {i : Nat} {v : Json} (hv : (textsOf o)[i]? = some v) :
    AllHold (programChecks o i) ↔ HasProgram v := by
  simp only [programChecks, allHold_cons, allHold_nil, and_true, hv, Option.some.injEq]
  constructor
  · rintro ⟨-, ⟨text, rfl, hdecode⟩, hne⟩
    obtain ⟨program, hprogram⟩ := Option.ne_none_iff_exists'.mp hdecode
    have hsame : (contestantOf o i).program = program := by
      simp [contestantOf, programOf, hv, hprogram]
    rw [hsame] at hne
    exact ⟨text, program, rfl, hprogram, hne⟩
  · rintro ⟨text, program, rfl, hprogram, hne⟩
    have hsame : (contestantOf o i).program = program := by
      simp [contestantOf, programOf, hv, hprogram]
    rw [hsame]
    exact ⟨⟨text, rfl⟩, ⟨text, rfl, by simp [hprogram]⟩, hne⟩

theorem allHold_programsChecks_iff {count : Nat} : AllHold (programsChecks o count) ↔
    ∃ texts, Json.field? o "warriors" = some (.array texts) ∧
      count ≤ texts.length ∧ ∀ i < count, ∀ v, texts[i]? = some v → HasProgram v := by
  simp only [programsChecks, textsChecks, allHold_append, allHold_cons, allHold_nil, and_true,
    allHold_flatMap, List.mem_range]
  constructor
  · rintro ⟨⟨-, ⟨texts, hv⟩, hmany⟩, hprograms⟩
    have hsame : textsOf o = texts := by simp [textsOf, hv]
    refine ⟨texts, hv, hsame ▸ hmany, fun i hi x hx => ?_⟩
    exact (allHold_programChecks_iff (hsame ▸ hx)).mp (hprograms i hi)
  · rintro ⟨texts, hv, hmany, hprograms⟩
    have hsame : textsOf o = texts := by simp [textsOf, hv]
    refine ⟨⟨by simp [hv], ⟨texts, hv⟩, hsame ▸ hmany⟩, fun i hi => ?_⟩
    obtain ⟨x, hx⟩ : ∃ x, texts[i]? = some x :=
      ⟨_, List.getElem?_eq_getElem (Nat.lt_of_lt_of_le hi hmany)⟩
    exact (allHold_programChecks_iff (hsame ▸ hx)).mpr (hprograms i hi x hx)

theorem allHold_capChecks_iff : AllHold (capChecks o) ↔
    Json.field? o "max_player_size" = none ∨ HasInt o "max_player_size" 0 65536 := by
  unfold capChecks
  split
  next hnone => simp [hnone]
  next v hv =>
    have hmost : (Arena.size : Int) < 0x8000000000000000 := by decide
    rw [allHold_intChecks_iff hmost]
    simp [hv, Arena.size]

/-- Running totals are within the arena exactly if the last of them is. -/
theorem allHold_sizeChecks_iff {most total : Nat} {cs : List Contestant}
    (htotal : total ≤ Arena.size) :
    AllHold (sizeChecks most total cs) ↔ (∀ c ∈ cs, c.program.length ≤ most) ∧
      total + cs.foldr (fun x total => x.program.length + total) 0 ≤ Arena.size := by
  induction cs generalizing total with
  | nil => simpa [sizeChecks] using htotal
  | cons c cs ih =>
      rw [sizeChecks, allHold_cons, allHold_cons, List.forall_mem_cons, List.foldr_cons,
        ← Nat.add_assoc]
      dsimp only
      constructor
      · rintro ⟨hc, hnext, hrest⟩
        obtain ⟨hcs, hlast⟩ := (ih hnext).mp hrest
        exact ⟨⟨hc, hcs⟩, hlast⟩
      · rintro ⟨⟨hc, hcs⟩, hlast⟩
        have hnext : total + c.program.length ≤ Arena.size := by omega
        exact ⟨hc, hnext, (ih hnext).mpr ⟨hcs, hlast⟩⟩

/-! ## All members -/

theorem allHold_objectChecks_iff : AllHold (objectChecks o) ↔ Valid o := by
  simp only [objectChecks, List.flatten_cons, List.flatten_nil, allHold_append, allHold_nil,
    allHold_realChecks_iff, allHold_tableChecks_iff, allHold_playersChecks_iff,
    allHold_programsChecks_iff, allHold_capChecks_iff,
    allHold_sizeChecks_iff (Nat.zero_le Arena.size), seedChecks, allHold_cons]
  rw [allHold_intChecks_iff (by decide), allHold_intChecks_iff (by decide),
    allHold_intChecks_iff (by decide), allHold_intChecks_iff (by decide),
    allHold_intChecks_iff (by decide)]
  constructor
  · rintro ⟨hplayers, hturn, hmax, hthread, hprocess, hmemory, hcycles, hsettings, hprograms, hcap,
      ⟨hsize, htotal⟩, ⟨hseed, -⟩, -⟩
    exact
      { numPlayers := hplayers
        cyclesPerTurn := hturn
        maxCycles := hmax
        threadScore := hthread
        processScore := hprocess
        memoryScore := hmemory
        cycles := hcycles
        players := hsettings
        programs := hprograms
        maxProgramSize := hcap
        size := hsize
        totalSize := by simpa [Arena.size] using htotal
        seed := hseed }
  · intro h
    refine ⟨h.numPlayers, h.cyclesPerTurn, h.maxCycles, h.threadScore, h.processScore,
      h.memoryScore, h.cycles, h.players, h.programs, h.maxProgramSize, ⟨h.size, ?_⟩,
      ⟨h.seed, trivial⟩, trivial⟩
    simpa [Arena.size] using h.totalSize

/-- A value is accepted exactly if it is an object with valid members.  The result then
has as many players as the object says, with the settings and programs that it gives
and none without a name.  Any other value is refused with the error of the first check
that fails. -/
theorem ofJson_decided {v : Json} (hv : v.Fits) :
    ((∃ c, ofJson v = .ok c) ↔ ∃ o, v = .object o ∧ Valid o) ∧
      (∀ c, ofJson v = .ok c → c.contestants = contestantsOf (membersOf v) ∧
        Json.field? (membersOf v) "num_players" =
          some (.number (.integer c.contestants.length)) ∧
        ∀ x ∈ c.contestants, x.settings.name ≠ "") ∧
      ∀ e, ofJson v = .error e ↔ FirstFailure (checksOf v) e := by
  have hdecides := decides_ofJson hv
  have hvalid : AllHold (checksOf v) ↔ ∃ o, v = .object o ∧ Valid o := by
    rw [checksOf, allHold_cons, allHold_objectChecks_iff]
    constructor
    · rintro ⟨⟨o, rfl⟩, h⟩
      exact ⟨o, rfl, h⟩
    · rintro ⟨o, rfl, h⟩
      exact ⟨⟨o, rfl⟩, h⟩
  refine ⟨hdecides.exists_eq_ok_iff.trans hvalid, fun c hc => ?_, fun e => hdecides.eq_error_iff⟩
  have hcontestants : c.contestants = contestantsOf (membersOf v) := hdecides.of_eq_ok hc
  obtain ⟨o, rfl, hmembers⟩ := hvalid.mp (hdecides.exists_eq_ok_iff.mp ⟨c, hc⟩)
  obtain ⟨hcount, hleast, -⟩ := hmembers.numPlayers.intOf
  have hlength : c.contestants.length = countOf o := by
    rw [hcontestants, contestantsOf, List.length_map, List.length_range]
    rfl
  refine ⟨hcontestants, ?_, fun x hx => ?_⟩
  · have hnat : (countOf o : Int) = intOf o "num_players" := Int.toNat_of_nonneg (by omega)
    rw [hlength, hnat]
    exact hcount
  · rw [hcontestants] at hx
    obtain ⟨i, -, rfl⟩ := List.mem_map.mp hx
    exact PlayerSettings.name_named_ne _ _

/-- The members of the duel are valid, and an object without members lacks the number of
players. -/
theorem ofJson_decided_duel :
    Json.Fits (.object duelMembers) ∧ Valid duelMembers ∧
      FirstFailure (checksOf (.object [])) (.missing "num_players") := by
  have hfits : Json.Fits (.object duelMembers) := by
    refine .object fun m hm => ?_
    simp only [duelMembers, List.mem_cons, List.not_mem_nil, or_false] at hm
    rcases hm with rfl | rfl | rfl | rfl | rfl | rfl | rfl
    · exact .number ⟨by decide, by decide⟩
    · exact .number ⟨by decide, by decide⟩
    · exact .number ⟨by decide, by decide⟩
    · exact .number ⟨by decide, by decide⟩
    · exact .number ⟨by decide, by decide⟩
    · exact .number ⟨by decide, by decide⟩
    · refine .array fun w hw => ?_
      simp only [List.mem_cons, List.not_mem_nil, or_false] at hw
      rcases hw with rfl | rfl
      · exact .string _
      · exact .string _
  have hnothing : Json.Fits (.object []) := .object (by simp)
  obtain ⟨o, hsame, hvalid⟩ := (ofJson_decided hfits).1.mp ⟨duel, ofJson_duelMembers⟩
  cases hsame
  exact ⟨hfits, hvalid, ((ofJson_decided hnothing).2.2 _).mp rfl⟩

end Configuration
end CoreWar
