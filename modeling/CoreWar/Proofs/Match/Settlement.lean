import CoreWar.Proofs.Match.Deaths
import CoreWar.Proofs.Match.Interruption
import CoreWar.Proofs.Points

/-!
# The results of a match

A match that ends credits every player with its cells, once; until then the accounts
hold nothing but what deaths are worth.  So the results can be told from the deaths of
the match and from the arena that it leaves (`scored_of_fresh`).

There are no more deaths than players, every death is worth less than `2 ^ 33` points,
and the cells are worth less than `2 ^ 53`: no counter comes near the end of its range.
-/

namespace CoreWar

theorem Arena.ownedBy_eq_countP (m : Arena) (pid : UInt8) :
    m.ownedBy pid =
      (List.range Arena.size).countP fun a => m.owner (UInt16.ofNat a) == pid := by
  have hcells : m.cells.toArray.toList =
      (List.range Arena.size).map fun a => m.cell (UInt16.ofNat a) := by
    apply List.ext_getElem
    · simp [Arena.size]
    · intro i hi hi'
      have hlt : i < 65536 := by simpa [Arena.size] using hi'
      simp [Arena.cell, Nat.mod_eq_of_lt hlt]
  rw [Arena.ownedBy, ← Array.countP_toList, hcells, List.countP_map]
  rfl

theorem Arena.ownedBy_le (m : Arena) (pid : UInt8) : m.ownedBy pid ≤ Arena.size := by
  rw [Arena.ownedBy_eq_countP]
  exact Nat.le_trans List.countP_le_length (Nat.le_of_eq List.length_range)

namespace Game

/-! ## Finishing -/

theorem finish_of_finished {g : Game} (h : g.finished = true) : g.finish = g := by
  unfold finish
  dsimp only
  rw [if_pos h]

theorem finished_finish (g : Game) : g.finish.finished = true := by
  unfold finish
  dsimp only
  split
  · assumption
  · rfl

theorem finish_of_not_finished {g : Game} (h : g.finished = false) :
    g.finish = { g with
      players := g.players.map fun p =>
        p.creditCells g.rules.memoryScore (g.arena.ownedBy p.pid)
      finished := true } := by
  unfold finish
  dsimp only
  rw [if_neg (by simp [h])]

/-- Finishing changes neither what has been played nor what could be. -/
theorem finish_keeps (g : Game) : g.finish.rules = g.rules ∧ g.finish.arena = g.arena ∧
    g.finish.cycle = g.cycle ∧ g.finish.alive = g.alive := by
  unfold finish
  dsimp only
  split
  · exact ⟨rfl, rfl, rfl, rfl⟩
  · exact ⟨rfl, rfl, rfl, rfl⟩

theorem isOver_finish (g : Game) : g.finish.isOver = g.isOver := by
  obtain ⟨hrules, -, hcycle, halive⟩ := g.finish_keeps
  have hsame := g.map_unscored_finish
  have hsize : g.finish.players.size = g.players.size := by
    simpa using congrArg Array.size hsame
  have hlast : g.finish.lastStanding = g.lastStanding := by
    rw [lastStanding, hsize, lastStanding]
  have hreserve : g.finish.reserve = g.reserve := by
    have hlist := congrArg Array.toList hsame
    rw [Array.toList_map, Array.toList_map] at hlist
    rw [reserve_eq, ← reserveOf_map_unscored, hlist, reserveOf_map_unscored, hrules, reserve_eq]
  rw [isOver, hrules, hcycle, halive, hlast, hreserve, isOver]

/-- To play a match on that is over and whose cells are credited gives its results and
changes nothing. -/
theorem play_eq_of_isOver {g : Game} (hcycle : g.cycle ≠ 0) (hover : g.isOver = true)
    (hfinished : g.finished = true) (capacity : Option Nat) :
    g.play capacity = ⟨g, [], .ok g.report⟩ := by
  have hreaches : Point.Reaches (g.outset capacity) ⟨⟨g, { capacity }⟩, .round⟩ := by
    rw [outset_of_begun hcycle]
  rw [play_of_isFinal hreaches (Point.isFinal_round_iff.mpr (.inr hover))]
  dsimp only
  rw [finish_of_finished hfinished]
  rfl

theorem play_of_isOver {g : Game} (hcycle : g.cycle ≠ 0) (hover : g.isOver = true)
    (hfinished : g.finished = true) (capacity : Option Nat) : (g.play capacity).game = g :=
  congrArg Played.game (play_eq_of_isOver hcycle hover hfinished capacity)

end Game

/-! ## Before the first step -/

namespace Configuration

open Game Point

variable {c : Configuration} {g : Game}

theorem Fresh.recorded (hg : c.Fresh g) (hc : c.WellFormed) : Recorded g.rules [] g.players := by
  obtain ⟨-, -, -, start, hplayers⟩ := hg.spec hc
  intro i p hp
  rw [← Array.getElem?_toList, hplayers, List.getElem?_map] at hp
  obtain ⟨k, hk, rfl⟩ := Option.map_eq_some_iff.mp hp
  have hle := hc.players_le
  have hik : k.val = i := by
    obtain ⟨hlt, hget⟩ := List.getElem?_eq_some_iff.mp hk
    rw [← hget, List.getElem_finRange]
    rfl
  constructor
  · change (UInt8.ofNat (k.val + 1)).toNat = i + 1
    rw [UInt8.toNat_ofNat', hik]
    omega
  · exact ⟨rfl, rfl, rfl, by simp [entered]⟩

theorem Fresh.settled_outset (hg : c.Fresh g) (hc : c.WellFormed) :
    Settled c.contestants.length [] (g.outset none) := by
  obtain ⟨-, hcycle, halive, -⟩ := hg.spec hc
  have htallied := hg.talliedBut hc
  rw [outset_of_not_begun hcycle]
  exact
    { unlimited := ⟨rfl, rfl⟩
      running := hg.finished_eq hc
      size := hg.size_eq hc
      tallied := ⟨htallied.sparse, htallied.alive_eq⟩
      recorded := hg.recorded hc
      length_add_alive := by
        change 0 + g.alive = _
        rw [halive, Nat.zero_add]
      victims := by simp
      hand := by simp }

end Configuration

/-! ## Results -/

/-- The results of a player: what deaths are worth to it, and the floor of what its
cells in an arena are worth. -/
structure PlayerReport.Settled (rules : Rules) (deaths : List Death) (m : Arena)
    (x : PlayerReport) : Prop where
  killedThreads_eq : x.killedThreads = deaths.countP fun d => d.countsFor x.pid
  killedProcesses_eq :
    x.killedProcesses = deaths.countP fun d => d.countsFor x.pid && d.isLast
  ownedCells_eq : x.ownedCells =
    (List.range Arena.size).countP fun a => m.owner (UInt16.ofNat a) == x.pid
  score_eq : (x.score : Int) =
    x.killedThreads * rules.threadScore + x.killedProcesses * rules.processScore +
      (Points.value (rules.memoryScore * Float.ofNat x.ownedCells)).floor
  fits : x.killedThreads < UInt32.size ∧ x.killedProcesses < UInt32.size ∧
    x.ownedCells ≤ Arena.size ∧ x.score < UInt64.size

namespace Player

variable {rules : Rules} {deaths : List Death} {p : Player}

/-- Few deaths leave the accounts far from the ends of their ranges. -/
theorem Credited.le (h : p.Credited rules deaths) (hrules : Configuration.PointsInRange rules)
    (hdeaths : deaths.length ≤ 255) :
    p.killedThreads ≤ 255 ∧ p.killedProcesses ≤ 255 ∧ p.score ≤ 255 * 0x1FFFFFFFE := by
  have hthreads : p.killedThreads ≤ 255 := by
    rw [h.killedThreads_eq]
    exact Nat.le_trans List.countP_le_length hdeaths
  have hprocesses : p.killedProcesses ≤ 255 := by
    rw [h.killedProcesses_eq]
    exact Nat.le_trans List.countP_le_length hdeaths
  have hthreadScore := Nat.mul_le_mul hthreads hrules.threadScore_le
  have hprocessScore := Nat.mul_le_mul hprocesses hrules.processScore_le
  have hscore := h.score_eq
  exact ⟨hthreads, hprocesses, by omega⟩

/-- Cells are credited on top of an account in order. -/
theorem Credited.settled_creditCells (h : p.Credited rules deaths)
    (hrules : Configuration.PointsInRange rules) (hdeaths : deaths.length ≤ 255) (m : Arena) :
    (p.creditCells rules.memoryScore (m.ownedBy p.pid)).report.Settled rules deaths m := by
  obtain ⟨hthreads, hprocesses, hscore⟩ := h.le hrules hdeaths
  have hcells := m.ownedBy_le p.pid
  obtain ⟨hfloor, hlt⟩ := Points.points_eq_floor hrules.least_le_memoryScore
    hrules.memoryScore_le hcells
  have h32 : UInt32.size = 4294967296 := rfl
  have h64 : UInt64.size = 18446744073709551616 := rfl
  have hsum := h.score_eq
  constructor
  · exact h.killedThreads_eq
  · exact h.killedProcesses_eq
  · exact m.ownedBy_eq_countP p.pid
  · change ((p.score + (rules.memoryScore * Float.ofNat (m.ownedBy p.pid)).toUInt64.toNat : Nat)
      : Int) = p.killedThreads * rules.threadScore + p.killedProcesses * rules.processScore +
        (Points.value (rules.memoryScore * Float.ofNat (m.ownedBy p.pid))).floor
    rw [← hfloor, hsum, Int.natCast_add, Int.natCast_add, Int.natCast_mul, Int.natCast_mul]
  · refine ⟨?_, ?_, hcells, ?_⟩
    · change p.killedThreads < UInt32.size
      omega
    · change p.killedProcesses < UInt32.size
      omega
    · change p.score + (rules.memoryScore * Float.ofNat (m.ownedBy p.pid)).toUInt64.toNat
        < UInt64.size
      omega

end Player

namespace Game

open Point

/-- The results of a match that is played with a log that takes every event, given its
deaths and the session in which its rounds end. -/
structure Scored (c : Configuration) (g : Game) (deaths : List Death) (s : Session) : Prop where
  course : Course (g.outset none) deaths ⟨s, .round⟩
  final : IsFinal ⟨s, .round⟩
  only : ∀ deaths' q, Course (g.outset none) deaths' q → q.IsFinal →
    deaths' = deaths ∧ q = ⟨s, .round⟩
  victims : ∀ d ∈ deaths, 1 ≤ d.victim.toNat ∧ d.victim.toNat ≤ c.contestants.length
  game_eq : (g.play none).game = s.game.finish
  result_eq : (g.play none).result = .ok (g.play none).game.report
  length_eq : (g.play none).game.report.players.length = c.contestants.length
  settled : ∀ i x, (g.play none).game.report.players[i]? = some x →
    x.pid.toNat = i + 1 ∧ x.Settled c.rules deaths (g.play none).game.arena
  /-- Whatever is played later, nothing is credited again. -/
  again : ∀ capacity, ((g.play none).game.play capacity).game = (g.play none).game
  /-- A death that counts for nobody changes no player. -/
  unpaid : ∀ p q d, Reaches (g.outset none) p → Step p q → p.death? = some d →
    Unpaid p.session.game.players d → q.session.game.players = p.session.game.players
  /-- The accounts fit at all times. -/
  fits : ∀ p, Reaches (g.outset none) p → ∀ x ∈ p.session.game.players,
    x.killedThreads < UInt32.size ∧ x.killedProcesses < UInt32.size ∧ x.score < UInt64.size

variable {c : Configuration} {g : Game}

/-- A match that has not been played comes to an end at which it is over. -/
theorem exists_end (hg : c.Fresh g) (hc : c.WellFormed) :
    ∃ s, Reaches (g.outset none) ⟨s, .round⟩ ∧ s.game.isOver = true ∧ s.game.cycle ≠ 0 ∧
      (g.play none).game = s.game.finish ∧ (g.play none).result = .ok s.game.finish.report := by
  have htallied := hg.talliedBut hc
  obtain ⟨s, hs, -, hplay⟩ := g.play_cases none
  obtain ⟨hopen, hend, -, -⟩ := keeps_of_reaches_outset htallied hs
  have hcycle : s.game.cycle ≠ 0 := by
    have hle : (g.outset none).session.game.cycle ≤ s.game.cycle := cycle_le_of_reaches hs
    obtain ⟨-, ⟨hrefused, -⟩ | ⟨-, hbegun⟩⟩ := outset_cases htallied none
    · rw [g.unlimited_outset.2] at hrefused
      cases hrefused
    · omega
  obtain ⟨hrefused, -⟩ | ⟨-, hover, hplay⟩ | ⟨-, hrest, hliving, -⟩ := hplay
  · rw [hopen] at hrefused
    cases hrefused
  · exact ⟨s, hs, hover, hcycle, by rw [hplay], by rw [hplay]⟩
  · -- No thread is lost, so the match is over when nobody is left.
    have hlost := ((isOver_eq_false_iff hend hliving).mp hrest).1
    exact absurd hlost (Nat.not_lt_zero _)

/-- Finishing turns accounts in order into results. -/
theorem settled_report_finish {deaths : List Death} (hrunning : g.finished = false)
    (hrecorded : Recorded g.rules deaths g.players)
    (hpoints : Configuration.PointsInRange g.rules) (hfew : deaths.length ≤ 255) {i : Nat}
    {x : PlayerReport} (hx : g.finish.report.players[i]? = some x) :
    x.pid.toNat = i + 1 ∧ x.Settled g.rules deaths g.finish.arena := by
  rw [finish_of_not_finished hrunning] at hx ⊢
  simp only [report, Array.toList_map, List.map_map, List.getElem?_map,
    Array.getElem?_toList] at hx
  obtain ⟨p, hp, rfl⟩ := Option.map_eq_some_iff.mp hx
  obtain ⟨hpid, hcredited⟩ := hrecorded i p hp
  exact ⟨hpid, hcredited.settled_creditCells hpoints hfew g.arena⟩

theorem length_report_finish (g : Game) : g.finish.report.players.length = g.players.size := by
  have hsize := congrArg Array.size g.map_unscored_finish
  simpa [report] using hsize

theorem scored_of_fresh (hc : c.Accepted) (hg : c.Fresh g) :
    ∃ deaths s, g.Scored c deaths s := by
  have hwell := hc.wellFormed
  have hplayers := hwell.players_le
  have hbegin : Settled c.contestants.length [] (g.outset none) := hg.settled_outset hwell
  have hrules : ∀ {p}, Reaches (g.outset none) p → p.session.game.rules = c.rules := fun hp =>
    (rules_of_reaches hp).trans ((g.outset_keeps none).1.trans (hg.spec hwell).1)
  -- Every point on the way has its accounts in order, and there are few deaths before it.
  have hsettled : ∀ {p}, Reaches (g.outset none) p → ∃ deaths, Course (g.outset none) deaths p ∧
      Settled c.contestants.length deaths p ∧ deaths.length ≤ 255 := by
    intro p hp
    obtain ⟨deaths, hcourse⟩ := exists_course_of_reaches hp
    have hsettled : Settled c.contestants.length deaths p := settled_of_course hbegin hcourse
    have hlength := hsettled.length_add_alive
    exact ⟨deaths, hcourse, hsettled, by omega⟩
  obtain ⟨s, hs, hover, hcycle, hgame, hresult⟩ := exists_end hg hwell
  obtain ⟨deaths, hcourse, hend, hfew⟩ := hsettled hs
  have hsame : s.game.rules = c.rules := hrules hs
  have hfinal : IsFinal ⟨s, .round⟩ := isFinal_round_iff.mpr (.inr hover)
  refine ⟨deaths, s, ?_⟩
  constructor
  · exact hcourse
  · exact hfinal
  · exact fun deaths' q hq hfinal' => hcourse.unique hfinal hq hfinal'
  · exact hend.victims
  · exact hgame
  · rw [hgame]
    exact hresult
  · rw [hgame, length_report_finish]
    exact hend.size
  · intro i x hx
    rw [hgame] at hx ⊢
    rw [← hsame]
    exact settled_report_finish hend.running hend.recorded (hsame ▸ hc.pointsInRange) hfew hx
  · intro capacity
    obtain ⟨-, -, hkeeps, -⟩ := s.game.finish_keeps
    rw [hgame]
    apply play_of_isOver
    · rwa [hkeeps]
    · rwa [isOver_finish]
    · exact finished_finish s.game
  · intro p q d hp hstep hd hunpaid
    obtain ⟨before, -, hpoint, -⟩ := hsettled hp
    exact players_step_of_unpaid hstep (unlimited_step hpoint.unlimited hstep).2 hd hunpaid
  · intro p hp x hx
    obtain ⟨deaths, -, hsettled, hfew⟩ := hsettled hp
    obtain ⟨i, hi, rfl⟩ := Array.mem_iff_getElem.mp hx
    have hcredited := (hsettled.recorded i _ (Array.getElem?_eq_getElem hi)).2
    rw [hrules hp] at hcredited
    obtain ⟨hthreads, hprocesses, hscore⟩ := hcredited.le hc.pointsInRange hfew
    have h32 : UInt32.size = 4294967296 := rfl
    have h64 : UInt64.size = 18446744073709551616 := rfl
    exact ⟨by omega, by omega, by omega⟩

end Game

namespace Configuration

theorem Fresh.patch {c : Configuration} {g : Game} (h : c.Fresh g) (m : Arena) :
    c.Fresh { g with arena := m } := by
  obtain ⟨ps, g₀, -, hps, hg₀, rfl⟩ := h
  exact ⟨ps, g₀, m, hps, hg₀, rfl⟩

/-- The duel in an arena in which the second player owns what the first one is about to
execute, which is no instruction. -/
def trappedDuel : Game := { clearedDuel with arena := Arena.empty.writeByte 0 0x7C 2 }

/-- The first player dies, and the second one is credited with a thread and a process. -/
theorem scored_trappedDuel :
    duel.Accepted ∧ duel.Fresh trappedDuel ∧
      (∃ deaths s, trappedDuel.Scored duel deaths s) ∧
      (trappedDuel.play none).game.players.map Player.killedThreads = #[0, 1] ∧
      (trappedDuel.play none).game.players.map Player.killedProcesses = #[0, 1] :=
  ⟨accepted_duel, fresh_clearedDuel.patch _,
    Game.scored_of_fresh accepted_duel (fresh_clearedDuel.patch _),
    by decide +kernel, by decide +kernel⟩

end Configuration
end CoreWar
