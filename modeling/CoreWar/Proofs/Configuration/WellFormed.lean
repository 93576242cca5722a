import CoreWar.Match.Configuration
import CoreWar.Proofs.Checks

/-!
# What an accepted configuration promises

A match relies on its configuration: that there is somebody to play, that no
program is empty, that the programs fit the arena together, that every player
may have a thread, and that the numbers of the rules are small enough to be
counted with.  `WellFormed` collects these facts, and every accepted
configuration has them.
-/

namespace CoreWar
namespace Configuration

open Checks

/-- The facts about its configuration that a match relies on. -/
structure WellFormed (c : Configuration) : Prop where
  players_pos : 0 < c.contestants.length
  players_le : c.contestants.length ≤ 255
  maxCycles_pos : 0 < c.rules.maxCycles
  maxCycles_le : c.rules.maxCycles ≤ 0x7FFFFFFFFFFFFFFF
  cost_lt : ∀ op, c.rules.costs.cost op < UInt32.size
  threads_pos : ∀ x ∈ c.contestants, 0 < x.settings.maxThreads
  program_ne_nil : ∀ x ∈ c.contestants, x.program ≠ []
  totalSize_le : c.totalSize ≤ Arena.size

/-! ## Numbers -/

theorem mem_range_of_readNat {o : Members} {field : String} {least most n : Nat}
    (h : readNat o field least most = .ok n) : least ≤ n ∧ n ≤ most := by
  obtain ⟨⟨x, hx⟩, -, rfl⟩ := map_eq_ok.mp h
  show least ≤ x.toNat ∧ x.toNat ≤ most
  omega

theorem cycles_le_of_readCost {o : Members} {field : String} {c : Cost}
    (h : readCost o field = .ok c) : c.cycles ≤ 0xFFFFFFFF := by
  obtain ⟨⟨x, hx⟩, -, rfl⟩ := map_eq_ok.mp h
  show x.toNat ≤ 0xFFFFFFFF
  omega

/-- Entering a cost keeps all costs within thirty-two bits. -/
theorem cost_lt_of_addCost {o : Members} {t t' : CostTable} {name : String}
    (ht : ∀ op, t.cost op < UInt32.size) (h : addCost o t name = .ok t') :
    ∀ op, t'.cost op < UInt32.size := by
  intro op
  unfold addCost at h
  dsimp only at h
  split at h
  · cases h
  next named _ =>
    split at h
    next c hc =>
      cases h
      have hle := cycles_le_of_readCost hc
      rw [CostTable.cost_set]
      split
      · exact Nat.lt_succ_of_le hle
      · exact ht op
    · cases h

theorem cost_lt_of_readCosts {o : Members} {t : CostTable} (h : readCosts o = .ok t) :
    ∀ op, t.cost op < UInt32.size := by
  have hones : ∀ op, CostTable.ones.cost op < UInt32.size := by
    intro op
    rw [CostTable.cost_ones]
    decide
  unfold readCosts at h
  split at h
  · cases h
    exact hones
  · cases h
    exact hones
  · exact foldlM_invariant (fun _ _ _ ht hadd => cost_lt_of_addCost ht hadd) hones h
  · cases h

/-! ## Players and programs -/

theorem threads_pos_of_checkPlayer {index : Nat} {s s' : PlayerSettings}
    (h : checkPlayer index s = .ok s') : 0 < s'.maxThreads := by
  unfold checkPlayer at h
  split at h
  · cases h
  · split at h
    · cases h
    · cases h
      omega

theorem readPlayers_spec {o : Members} {count : Nat} {players : List PlayerSettings}
    (h : readPlayers o count = .ok players) :
    players.length = count ∧ ∀ s ∈ players, 0 < s.maxThreads := by
  obtain ⟨entries, -, hplayers⟩ := bind_eq_ok.mp h
  constructor
  · rw [length_of_mapM_eq_ok hplayers, List.length_range]
  · refine forall_mem_of_mapM_eq_ok (fun index s hs => ?_) hplayers
    obtain ⟨given, -, hcheck⟩ := bind_eq_ok.mp hs
    exact threads_pos_of_checkPlayer hcheck

theorem readProgram_spec {x : (PlayerSettings × Json) × Nat} {c : Contestant}
    (h : readProgram x = .ok c) : c.settings = x.1.1 ∧ c.program ≠ [] := by
  unfold readProgram at h
  dsimp only at h
  split at h
  · cases h
  · split at h
    · cases h
    · cases h
    next hne _ =>
      cases h
      exact ⟨rfl, hne⟩

theorem le_length_of_programTexts {o : Members} {count : Nat} {texts : List Json}
    (h : programTexts o count = .ok texts) : count ≤ texts.length := by
  unfold programTexts at h
  split at h
  · cases h
  · split at h
    · cases h
    · cases h
      omega
  · cases h

/-- Every player enters with its settings and a program that is not empty. -/
theorem readPrograms_spec {o : Members} {players : List PlayerSettings}
    {contestants : List Contestant} (h : readPrograms o players = .ok contestants) :
    contestants.map Contestant.settings = players ∧ ∀ c ∈ contestants, c.program ≠ [] := by
  obtain ⟨texts, htexts, hprograms⟩ := bind_eq_ok.mp h
  constructor
  · calc contestants.map Contestant.settings
        = (players.zip texts).zipIdx.map (Prod.fst ∘ Prod.fst) :=
          map_eq_map_of_mapM_eq_ok (fun _ _ hx => (readProgram_spec hx).1) hprograms
      _ = (players.zip texts).map Prod.fst := by rw [← List.map_map, List.zipIdx_map_fst]
      _ = players := List.map_fst_zip (le_length_of_programTexts htexts)
  · exact forall_mem_of_mapM_eq_ok (fun _ _ hx => (readProgram_spec hx).2) hprograms

/-! ## The total size -/

/-- A passed sum of sizes is the sum of all sizes, and no larger than the
arena. -/
theorem foldlM_addProgram_spec {most : Nat} {contestants : List Contestant} {total n : Nat}
    (htotal : total ≤ Arena.size)
    (h : contestants.foldlM (addProgram most) total = .ok n) :
    n = total + contestants.foldr (fun x t => x.program.length + t) 0 ∧ n ≤ Arena.size := by
  induction contestants generalizing total with
  | nil =>
      cases h
      exact ⟨rfl, htotal⟩
  | cons x xs ih =>
      rw [List.foldlM_cons] at h
      obtain ⟨total', hadd, hrest⟩ := bind_eq_ok.mp h
      unfold addProgram at hadd
      split at hadd
      · cases hadd
      · split at hadd
        · cases hadd
        · cases hadd
          obtain ⟨hn, hle⟩ := ih (by omega) hrest
          rw [List.foldr_cons]
          exact ⟨by omega, hle⟩

/-! ## The parts of a configuration -/

/-- The members that the parts of a configuration are read from. -/
structure ReadFrom (o : Members) (c : Configuration) : Prop where
  contestants : ∃ count players, readNat o "num_players" 1 255 = .ok count ∧
    readPlayers o count = .ok players ∧ readPrograms o players = .ok c.contestants
  cyclesPerTurn : readNat o "cycles_per_turn" 1 65535 = .ok c.rules.cyclesPerTurn
  maxCycles : readNat o "max_cycles" 1 0x7FFFFFFFFFFFFFFF = .ok c.rules.maxCycles
  threadScore : readNat o "score_for_killing_thread" 0 0xFFFFFFFF = .ok c.rules.threadScore
  processScore : readNat o "score_for_killing_process" 0 0xFFFFFFFF = .ok c.rules.processScore
  memoryScore : readReal o "score_for_owning_ram" 0 0xFFFFFFFF = .ok c.rules.memoryScore
  costs : readCosts o = .ok c.rules.costs
  totalSize : ∃ total, c.contestants.foldlM (addProgram c.maxProgramSize) 0 = .ok total
  seed : readSeed o = .ok c.seed

theorem readFrom_of_ofJson {v : Json} {c : Configuration} (h : ofJson v = .ok c) :
    ∃ o, v = .object o ∧ c.ReadFrom o := by
  cases v with
  | object o =>
      unfold ofJson at h
      obtain ⟨count, hcount, h⟩ := bind_eq_ok.mp h
      obtain ⟨cyclesPerTurn, hcycles, h⟩ := bind_eq_ok.mp h
      obtain ⟨maxCycles, hmax, h⟩ := bind_eq_ok.mp h
      obtain ⟨threadScore, hthread, h⟩ := bind_eq_ok.mp h
      obtain ⟨processScore, hprocess, h⟩ := bind_eq_ok.mp h
      obtain ⟨memoryScore, hmemory, h⟩ := bind_eq_ok.mp h
      obtain ⟨costs, hcosts, h⟩ := bind_eq_ok.mp h
      obtain ⟨players, hplayers, h⟩ := bind_eq_ok.mp h
      obtain ⟨contestants, hcontestants, h⟩ := bind_eq_ok.mp h
      obtain ⟨most, -, h⟩ := bind_eq_ok.mp h
      obtain ⟨total, htotal, h⟩ := bind_eq_ok.mp h
      obtain ⟨seed, hseed, h⟩ := bind_eq_ok.mp h
      cases h
      exact ⟨o, rfl, ⟨count, players, hcount, hplayers, hcontestants⟩, hcycles, hmax, hthread,
        hprocess, hmemory, hcosts, ⟨total, htotal⟩, hseed⟩
  | null => cases h
  | bool b => cases h
  | number n => cases h
  | string s => cases h
  | array items => cases h

/-- An accepted configuration is well-formed. -/
theorem wellFormed_of_ofJson {v : Json} {c : Configuration} (h : ofJson v = .ok c) :
    c.WellFormed := by
  obtain ⟨o, -, hread⟩ := readFrom_of_ofJson h
  obtain ⟨count, players, hcount, hplayers, hcontestants⟩ := hread.contestants
  obtain ⟨total, htotal⟩ := hread.totalSize
  have hcount := mem_range_of_readNat hcount
  have hmax := mem_range_of_readNat hread.maxCycles
  obtain ⟨hlength, hthreads⟩ := readPlayers_spec hplayers
  obtain ⟨hsettings, hprogram⟩ := readPrograms_spec hcontestants
  obtain ⟨hn, hle⟩ := foldlM_addProgram_spec (Nat.zero_le _) htotal
  have hplayersLength : c.contestants.length = count := by
    rw [← hlength, ← hsettings, List.length_map]
  have hthreads' : ∀ x ∈ c.contestants, 0 < x.settings.maxThreads := by
    intro x hx
    apply hthreads
    rw [← hsettings]
    exact List.mem_map_of_mem hx
  exact
    { players_pos := hplayersLength ▸ hcount.1
      players_le := hplayersLength ▸ hcount.2
      maxCycles_pos := hmax.1
      maxCycles_le := hmax.2
      cost_lt := cost_lt_of_readCosts hread.costs
      threads_pos := hthreads'
      program_ne_nil := hprogram
      totalSize_le := by
        rw [Nat.zero_add] at hn
        exact Nat.le_trans (Nat.le_of_eq hn.symm) hle }

/-- The configurations that a match can be made from: those that were read, from
a value or from its text. -/
def Accepted (c : Configuration) : Prop :=
  (∃ v, ofJson v = .ok c) ∨ ∃ text, ofText text = .ok c

theorem Accepted.exists_ofJson {c : Configuration} (h : c.Accepted) : ∃ v, ofJson v = .ok c := by
  obtain hv | ⟨text, htext⟩ := h
  · exact hv
  · unfold ofText at htext
    split at htext
    next v _ => exact ⟨v, htext⟩
    · cases htext

theorem Accepted.wellFormed {c : Configuration} (h : c.Accepted) : c.WellFormed := by
  obtain ⟨v, hv⟩ := h.exists_ofJson
  exact wellFormed_of_ofJson hv

/-! ## Points -/

/-- The ranges of what a match counts points with. -/
structure PointsInRange (r : Rules) : Prop where
  threadScore_le : r.threadScore ≤ 0xFFFFFFFF
  processScore_le : r.processScore ≤ 0xFFFFFFFF
  least_le_memoryScore : Float.ofNat 0 ≤ r.memoryScore
  memoryScore_le : r.memoryScore ≤ Float.ofNat 0xFFFFFFFF

theorem mem_range_of_readReal {o : Members} {field : String} {least most : Nat} {x : Float}
    (h : readReal o field least most = .ok x) : Float.ofNat least ≤ x ∧ x ≤ Float.ofNat most := by
  unfold readReal at h
  split at h
  · cases h
  · split at h
    · split at h
      next hrange =>
        cases h
        exact hrange
      · cases h
    · cases h

theorem pointsInRange_of_ofJson {v : Json} {c : Configuration} (h : ofJson v = .ok c) :
    PointsInRange c.rules := by
  obtain ⟨o, -, hread⟩ := readFrom_of_ofJson h
  obtain ⟨hleast, hmost⟩ := mem_range_of_readReal hread.memoryScore
  exact
    { threadScore_le := (mem_range_of_readNat hread.threadScore).2
      processScore_le := (mem_range_of_readNat hread.processScore).2
      least_le_memoryScore := hleast
      memoryScore_le := hmost }

theorem Accepted.pointsInRange {c : Configuration} (h : c.Accepted) : PointsInRange c.rules := by
  obtain ⟨v, hv⟩ := h.exists_ofJson
  exact pointsInRange_of_ofJson hv

/-! ## A duel -/

/-- The members of a configuration for two players. -/
def duelMembers : Members :=
  [("num_players", .number (.integer 2)), ("cycles_per_turn", .number (.integer 1)),
    ("max_cycles", .number (.integer 10)), ("score_for_killing_thread", .number (.integer 10)),
    ("score_for_killing_process", .number (.integer 100)),
    ("score_for_owning_ram", .number (.integer 0)),
    ("warriors", .array [.string "AAA=", .string "AAAAAA=="])]

/-- A configuration in which two programs of `nop` meet. -/
def duel : Configuration where
  rules :=
    { cyclesPerTurn := 1
      maxCycles := 10
      threadScore := 10
      processScore := 100
      memoryScore := 0
      costs := .ones }
  contestants := [⟨{ name := "Player 1" }, [0, 0]⟩, ⟨{ name := "Player 2" }, [0, 0, 0, 0]⟩]
  maxProgramSize := 32768
  seed := none

theorem ofJson_duelMembers : ofJson (.object duelMembers) = .ok duel := by
  rfl

theorem accepted_duel : duel.Accepted := .inl ⟨_, ofJson_duelMembers⟩

end Configuration
end CoreWar
