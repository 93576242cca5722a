import CoreWar.Proofs.Configuration.WellFormed

/-!
# What a configuration is not read from

An object may hold more than a configuration is read from: members with other
names, entries and programs of more players than there are, and members of an
entry that are no settings.  Nothing of it is looked at, be it well-formed or not.
So two objects that agree on what is read give the same configuration, or they are
refused for the same reason (`ofJson_of_sameReading`).
-/

namespace CoreWar
namespace Configuration

open Checks

/-- The names of the members that are read as a whole. -/
def wholeFields : List String :=
  ["num_players", "cycles_per_turn", "max_cycles", "score_for_killing_thread",
    "score_for_killing_process", "score_for_owning_ram", "cycles", "max_player_size", "seed"]

/-- The names of the members that the settings of a player are read from. -/
def settingsFields : List String := ["name", "cycle_modifer", "cycle_modifier", "max_threads"]

/-- Two entries are the same, or they are objects with the same settings. -/
inductive SameSettings : Json → Json → Prop
  | same (v : Json) : SameSettings v v
  | object {members members' : Members}
      (h : ∀ field ∈ settingsFields, Json.field? members field = Json.field? members' field) :
      SameSettings (.object members) (.object members')

/-- The values of a field are the same, or they are arrays of which the first items are related
one by one. -/
inductive SameFirst (count : Nat) (R : Json → Json → Prop) : Option Json → Option Json → Prop
  | same (v : Option Json) : SameFirst count R v v
  | array {items items' : List Json} (h : List.Forall₂ R (items.take count) (items'.take count)) :
      SameFirst count R (some (.array items)) (some (.array items'))

/-- Two objects agree on everything that a configuration is read from.  What is read of the
entries and programs depends on the number of players, if there is one. -/
structure SameReading (o o' : Members) : Prop where
  whole : ∀ field ∈ wholeFields, Json.field? o field = Json.field? o' field
  settings : ∀ count, readNat o "num_players" 1 255 = .ok count →
    SameFirst count SameSettings (Json.field? o "player_settings")
      (Json.field? o' "player_settings")
  programs : ∀ count, readNat o "num_players" 1 255 = .ok count →
    SameFirst count Eq (Json.field? o "warriors") (Json.field? o' "warriors")

variable {o o' : Members} {field : String} {count : Nat}

/-! ## Members read as a whole -/

theorem readNat_congr (h : Json.field? o field = Json.field? o' field) (least most : Nat) :
    readNat o field least most = readNat o' field least most := by
  rw [readNat, readNat, readInt, readInt, h]

theorem readReal_congr (h : Json.field? o field = Json.field? o' field) (least most : Nat) :
    readReal o field least most = readReal o' field least most := by
  rw [readReal, readReal, h]

theorem readCosts_congr (h : Json.field? o "cycles" = Json.field? o' "cycles") :
    readCosts o = readCosts o' := by
  rw [readCosts, readCosts, h]

theorem readMaxProgramSize_congr
    (h : Json.field? o "max_player_size" = Json.field? o' "max_player_size") (players : Nat) :
    readMaxProgramSize o players = readMaxProgramSize o' players := by
  rw [readMaxProgramSize, readMaxProgramSize, givenProgramSize, givenProgramSize, readNat_congr h,
    h]

theorem readSeed_congr (h : Json.field? o "seed" = Json.field? o' "seed") :
    readSeed o = readSeed o' := by
  rw [readSeed, readSeed, h]

/-! ## Players -/

theorem SameSettings.ofJson?_eq {v v' : Json} (h : SameSettings v v') :
    PlayerSettings.ofJson? v = PlayerSettings.ofJson? v' := by
  cases h with
  | same => rfl
  | object h =>
      simp only [PlayerSettings.ofJson?, PlayerSettings.modifier?, h "name" (by decide),
        h "cycle_modifer" (by decide), h "cycle_modifier" (by decide), h "max_threads" (by decide)]

/-- A player is read from its own entry. -/
theorem readPlayer_congr {entries entries' : List Json} {index : Nat}
    (h : Option.Rel SameSettings entries[index]? entries'[index]?) :
    readPlayer entries index = readPlayer entries' index := by
  have hgiven : givenPlayer entries index = givenPlayer entries' index := by
    unfold givenPlayer
    generalize entries[index]? = entry, entries'[index]? = entry' at h
    cases h with
    | none => rfl
    | @some v v' hsame =>
        cases hsame with
        | same => rfl
        | object h =>
            dsimp only
            rw [(SameSettings.object h).ofJson?_eq]
  rw [readPlayer, readPlayer, hgiven]

theorem rel_getElem? {R : Json → Json → Prop} {items items' : List Json} {index : Nat}
    (h : List.Forall₂ R items items') : Option.Rel R items[index]? items'[index]? := by
  induction h generalizing index with
  | nil => exact .none
  | cons hitem _ ih =>
      cases index with
      | zero => exact .some hitem
      | succ index => exact ih

theorem readPlayers_congr
    (h : SameFirst count SameSettings (Json.field? o "player_settings")
      (Json.field? o' "player_settings")) : readPlayers o count = readPlayers o' count := by
  rw [readPlayers, readPlayers, playerEntries, playerEntries]
  generalize Json.field? o "player_settings" = v, Json.field? o' "player_settings" = v' at h
  cases h with
  | same => rfl
  | @array entries entries' hfirst =>
      refine mapM_congr fun index hindex => readPlayer_congr ?_
      have hrel : Option.Rel SameSettings (entries.take count)[index]?
          (entries'.take count)[index]? := rel_getElem? hfirst
      rw [List.mem_range] at hindex
      rwa [List.getElem?_take_of_lt hindex, List.getElem?_take_of_lt hindex] at hrel

/-! ## Programs -/

/-- Players are paired with as many texts as there are players. -/
theorem zip_take_length (players : List PlayerSettings) (texts : List Json) :
    players.zip (texts.take players.length) = players.zip texts := by
  induction players generalizing texts with
  | nil => rfl
  | cons player players ih =>
      cases texts with
      | nil => rfl
      | cons text texts =>
          rw [List.length_cons, List.take_succ_cons, List.zip_cons_cons, ih, List.zip_cons_cons]

theorem readPrograms_congr {players : List PlayerSettings}
    (h : SameFirst players.length Eq (Json.field? o "warriors") (Json.field? o' "warriors")) :
    readPrograms o players = readPrograms o' players := by
  rw [readPrograms, readPrograms, programTexts, programTexts]
  generalize Json.field? o "warriors" = v, Json.field? o' "warriors" = v' at h
  cases h with
  | same => rfl
  | @array texts texts' hfirst =>
      have htake : texts.take players.length = texts'.take players.length := by
        rwa [List.forall₂_eq_eq_eq] at hfirst
      have hlength := congrArg List.length htake
      rw [List.length_take, List.length_take] at hlength
      by_cases hfew : texts.length < players.length
      · -- Too few texts are counted in the error, but then there are no others.
        rw [List.take_of_length_le (by omega), List.take_of_length_le (by omega)] at htake
        rw [htake]
      · have hfew' : ¬texts'.length < players.length := by omega
        dsimp only
        rw [if_neg hfew, if_neg hfew']
        change ((players.zip texts).zipIdx).mapM readProgram =
          ((players.zip texts').zipIdx).mapM readProgram
        rw [← zip_take_length players texts, htake, zip_take_length]

/-! ## Configurations -/

/-- Objects that agree on what is read are read alike: they give the same configuration or the
same error. -/
theorem ofJson_of_sameReading (h : SameReading o o') :
    ofJson (.object o) = ofJson (.object o') := by
  have hwhole := h.whole
  simp only [wholeFields, List.forall_mem_cons] at hwhole
  obtain ⟨hplayers, hturn, hmax, hthread, hprocess, hmemory, hcosts, hsize, hseed, -⟩ := hwhole
  simp only [ofJson, ← readNat_congr hplayers, ← readNat_congr hturn, ← readNat_congr hmax,
    ← readNat_congr hthread, ← readNat_congr hprocess, ← readReal_congr hmemory,
    ← readCosts_congr hcosts, ← readMaxProgramSize_congr hsize, ← readSeed_congr hseed]
  refine bind_congr_of_ok fun count hcount => ?_
  rw [← readPlayers_congr (h.settings count hcount)]
  refine bind_congr fun cyclesPerTurn => bind_congr fun maxCycles => bind_congr fun threadScore =>
    bind_congr fun processScore => bind_congr fun memoryScore => bind_congr fun costs => ?_
  refine bind_congr_of_ok fun players hread => ?_
  have hlength := (readPlayers_spec hread).1
  rw [readPrograms_congr (hlength ▸ h.programs count hcount)]

/-- A duel with an entry for each player. -/
def duelWithEntries : Members :=
  ("player_settings", .array [.object [("name", .string "Imp")], .null]) :: duelMembers

/-- The same duel with a third program, a third entry and members of other names. -/
def duelWithSurplus : Members :=
  duelMembers ++
    [("warriors", .array [.string "AAA=", .string "AAAAAA==", .bool true]),
      ("player_settings", .array
        [.object [("team", .null), ("name", .string "Imp")], .null, .string "Dwarf"]),
      ("author", .array [])]

theorem ofJson_of_sameReading_duel :
    SameReading duelWithEntries duelWithSurplus ∧
      ofJson (.object duelWithEntries) = ofJson (.object duelWithSurplus) := by
  have hsame : SameReading duelWithEntries duelWithSurplus := by
    refine ⟨?_, fun count hcount => ?_, fun count hcount => ?_⟩
    · simp only [wholeFields, List.forall_mem_cons]
      exact ⟨rfl, rfl, rfl, rfl, rfl, rfl, rfl, rfl, rfl, nofun⟩
    · obtain rfl : 2 = count := Except.ok.inj hcount
      refine .array (.cons (.object ?_) (.cons (.same .null) .nil))
      simp only [settingsFields, List.forall_mem_cons]
      exact ⟨rfl, rfl, rfl, rfl, nofun⟩
    · obtain rfl : 2 = count := Except.ok.inj hcount
      exact .array (.cons rfl (.cons rfl .nil))
  exact ⟨hsame, ofJson_of_sameReading hsame⟩

end Configuration
end CoreWar
