import CoreWar.Proofs.Match.Demands
import CoreWar.Proofs.Match.Settlement

/-!
# Matches whose log is full

A log with room for `n` events tells of the first `n` events of what a log without a
limit would tell of.  Up to there the two matches keep step (`step_limited`); the next
charge finds no room, and the match stops with what that charge has left
(`step_limited_of_full`).  If there are no more than `n` events, nothing tells the two
matches apart (`play_full`).

A match that stops in this way has credited deaths but no cells.
-/

namespace CoreWar

namespace EventLog

/-- The log with room for a number of events. -/
def limited (l : EventLog) (n : Nat) : EventLog := { l with capacity := some n }

variable {l : EventLog} {n : Nat}

theorem isFull_limited : (l.limited n).isFull = decide (n ≤ l.events.size) := rfl

theorem push_limited (h : l.capacity = none) (hroom : l.events.size < n) (e : Event) :
    (l.limited n).push e = (l.push e).limited n := by
  have hlimited : (l.limited n).isFull = false := by simp [isFull_limited, hroom]
  rw [push, push, hlimited, isFull_of_unlimited h]
  rfl

theorem push_limited_of_full (hfull : n ≤ l.events.size) (e : Event) :
    (l.limited n).push e = { l.limited n with refused := true } :=
  if_pos (decide_eq_true hfull)

end EventLog

namespace Point

/-- Where the match stands if its log has room for a number of events. -/
def limited (p : Point) (n : Nat) : Point :=
  ⟨⟨p.session.game, p.session.log.limited n⟩, p.stage⟩

variable {p q : Point} {d : Demand} {n : Nat}

/-! ## Steps with a limited log -/

/-- As long as there is room, a limit changes no step. -/
theorem step_limited (hp : p.session.log.capacity = none ∧ p.session.log.refused = false)
    (h : Step p q) (hroom : q.session.log.events.size ≤ n) :
    Step (p.limited n) (q.limited n) := by
  have hopen := (unlimited_step hp h).2
  -- A charge that is recorded has found room before it.
  have hpush (e : Event) (hlog : q.session.log = p.session.log.push e) :
      (p.session.log.limited n).push e = q.session.log.limited n := by
    rw [hlog, EventLog.events_push_of_room (EventLog.isFull_of_unlimited hp.1),
      Array.size_push] at hroom
    rw [hlog]
    exact EventLog.push_limited hp.1 hroom e
  cases h with
  | enter hlog hover => exact .enter hlog hover
  | leave hlog hi => exact .leave hlog hi
  | skip hlog hi hnext => exact .skip hlog hi hnext
  | take hlog hi hnext => exact .take hlog hi hnext
  | spent hlog => exact .spent hlog
  | refuse hlog hbudget hrefused => simp [hrefused] at hopen
  | @die s i pid t budget hlog hbudget hroom hfault =>
      have hsame := hpush _ rfl
      unfold limited
      rw [← hsame]
      refine .die hlog hbudget ?_ hfault
      dsimp only
      rw [hsame]
      exact hopen
  | @pay s i pid t budget hlog hbudget hroom hfault =>
      have hsame := hpush _ rfl
      unfold limited
      rw [← hsame]
      refine .pay hlog hbudget ?_ hfault
      dsimp only
      rw [hsame]
      exact hopen

/-- A full log refuses the next charge, and the match stops. -/
theorem step_limited_of_full (h : Step p q) (hopen : p.session.log.refused = false)
    (hd : p.demand? = some d) (hfull : n ≤ p.session.log.events.size) :
    Step (p.limited n)
      ⟨⟨d.charge.game, { p.session.log.limited n with refused := true }⟩, .round⟩ := by
  obtain ⟨hnone, -⟩ | ⟨d', hd', hgame, hbudget, -⟩ := demand_step h
  · simp [hd] at hnone
  · obtain rfl : d = d' := Option.some.inj (hd.symm.trans hd')
    have hstage := stage_of_demand? hd
    have hpush := EventLog.push_limited_of_full hfull d.charge.event
    unfold limited
    rw [hstage, ← hpush, Demand.charge, hgame]
    refine .refuse hopen hbudget ?_
    dsimp only
    rw [← hgame, ← Demand.charge, hpush]

/-- What a log without a limit tells of before a step, and what it tells of the step. -/
theorem events_step (hp : p.session.log.capacity = none ∧ p.session.log.refused = false)
    (h : Step p q) :
    q.session.log.events.toList =
      p.session.log.events.toList ++ p.demand?.toList.map Demand.event :=
  events_of_pays hp (.single h)

/-- A match with room for `n` events follows the one with room for all, or it stops at
the first charge behind `n` events. -/
theorem reaches_limited (hp : p.session.log.capacity = none ∧ p.session.log.refused = false)
    (hroom : p.session.log.events.size ≤ n) (h : Reaches p q) :
    (q.session.log.events.size ≤ n ∧ Reaches (p.limited n) (q.limited n)) ∨
      (n < q.session.log.events.size ∧ ∃ r d, Reaches p r ∧ r.demand? = some d ∧
        d.game = r.session.game ∧
        r.session.log.events.toList = q.session.log.events.toList.take n ∧
        Reaches (p.limited n)
          ⟨⟨d.charge.game, { r.session.log.limited n with refused := true }⟩, .round⟩) := by
  induction h with
  | refl => exact .inl ⟨hroom, .refl⟩
  | @tail b q hb hstep ih =>
      have hopen : b.session.log.capacity = none ∧ b.session.log.refused = false :=
        invariant (fun _ _ => unlimited_step) hp hb
      have hevents := events_step hopen hstep
      have hlength := congrArg List.length hevents
      rw [List.length_append, Array.length_toList, Array.length_toList] at hlength
      obtain ⟨hle, hlimited⟩ | ⟨hlt, r, d, hr, hd, hgame, htake, hcut⟩ := ih
      · by_cases hmore : q.session.log.events.size ≤ n
        · exact .inl ⟨hmore, hlimited.tail (step_limited hopen hstep hmore)⟩
        · -- The log has been filled before, and this step is a charge.
          obtain ⟨hnone, hlog, -⟩ | ⟨d, hd, hgame, -⟩ := demand_step hstep
          · rw [hlog] at hmore
            exact absurd hle hmore
          · rw [hd] at hevents hlength
            simp only [Option.toList_some, List.map_cons, List.map_nil, List.length_cons,
              List.length_nil] at hevents hlength
            have hfull : b.session.log.events.size = n := by omega
            refine .inr ⟨by omega, b, d, hb, hd, hgame, ?_, ?_⟩
            · rw [hevents, List.take_left' (by simpa using hfull)]
            · exact hlimited.tail
                (step_limited_of_full hstep hopen.2 hd (Nat.le_of_eq hfull.symm))
      · refine .inr ⟨by omega, r, d, hr, hd, hgame, ?_, hcut⟩
        rw [htake, hevents, List.take_append_of_le_length]
        rw [Array.length_toList]
        exact Nat.le_of_lt hlt

end Point

namespace Game

open Point

variable {c : Configuration} {g : Game} {n : Nat}

/-! ## The beginning -/

/-- A log without any room refuses even to record that the match begins. -/
theorem play_of_no_room (hcycle : g.cycle = 0) :
    g.play (some 0) = ⟨g, [], .error .logFull⟩ := by
  have houtset : g.outset (some 0) = ⟨⟨g, ⟨#[], some 0, true⟩⟩, .round⟩ := by
    obtain ⟨rules, arena, players, starts, cycle, alive, finished⟩ := g
    obtain rfl : cycle = 0 := hcycle
    rfl
  have hreaches : Reaches (g.outset (some 0)) ⟨⟨g, ⟨#[], some 0, true⟩⟩, .round⟩ :=
    houtset ▸ .refl
  exact play_of_isFinal hreaches (isFinal_round_iff.mpr (.inl rfl))

/-- With room for an event, the match begins as it does without a limit. -/
theorem outset_limited (hcycle : g.cycle = 0) (hn : n ≠ 0) :
    g.outset (some n) = (g.outset none).limited n := by
  have hroom : EventLog.push { capacity := some n } (.init 0 g.starts) =
      (EventLog.push { capacity := none } (.init 0 g.starts)).limited n :=
    EventLog.push_limited (l := { capacity := none }) rfl (Nat.pos_of_ne_zero hn) _
  rw [outset_of_not_begun hcycle, outset_of_not_begun hcycle, hroom]
  rfl

theorem size_events_outset (hcycle : g.cycle = 0) :
    (g.outset none).session.log.events.size = 1 := by
  rw [outset_of_not_begun hcycle]
  rfl

/-- A match has at least the event that it begins. -/
theorem events_pos_of_reaches {p : Point} (hcycle : g.cycle = 0) (h : Reaches (g.outset none) p) :
    0 < p.session.log.events.size := by
  obtain ⟨ds, hpays⟩ := exists_pays_of_reaches h
  have hevents := congrArg List.length (events_of_pays g.unlimited_outset hpays)
  rw [List.length_append, Array.length_toList, Array.length_toList,
    size_events_outset hcycle] at hevents
  omega

/-! ## The whole match and the part that fits -/

/-- How a match stops that has more than `n` events if its log has room for `n`. -/
structure CutOff (c : Configuration) (g : Game) (n : Nat) : Prop where
  result_eq : (g.play (some n)).result = .error .logFull
  events_eq : (g.play (some n)).events = (g.play none).events.take n
  /-- Cells have not been credited, only deaths. -/
  uncredited : (g.play (some n)).game.finished = false ∧
    ∀ p ∈ (g.play (some n)).game.players, p.ownedCells = 0 ∧
      p.score = p.killedThreads * c.rules.threadScore + p.killedProcesses * c.rules.processScore
  unchanged : n = 0 → (g.play (some n)).game = g
  /-- A match that has begun stops behind the charge that the log has no room for. -/
  charged : n ≠ 0 → ∃ p d, Reaches (g.outset none) p ∧ p.demand? = some d ∧
    p.session.log.events.toList = (g.play none).events.take n ∧
    (g.play (some n)).game = d.charge.game

/-- The account of a player before cells are credited. -/
theorem Recorded.uncredited {rules : Rules} {deaths : List Death} {players : Array Player}
    (h : Recorded rules deaths players) {p : Player} (hp : p ∈ players) :
    p.ownedCells = 0 ∧
      p.score = p.killedThreads * rules.threadScore + p.killedProcesses * rules.processScore := by
  obtain ⟨i, hi, rfl⟩ := Array.mem_iff_getElem.mp hp
  have hcredited := (h i _ (Array.getElem?_eq_getElem hi)).2
  exact ⟨hcredited.ownedCells_eq, hcredited.score_eq⟩

theorem cutOff_zero (hg : c.Fresh g) (hc : c.WellFormed) : g.CutOff c 0 := by
  obtain ⟨hrules, hcycle, -⟩ := hg.spec hc
  have hplay := play_of_no_room hcycle
  constructor
  · rw [hplay]
  · rw [hplay, List.take_zero]
  · rw [hplay, ← hrules]
    exact ⟨hg.finished_eq hc, fun p hp => (hg.recorded hc).uncredited hp⟩
  · intro
    rw [hplay]
  · intro hn
    exact absurd rfl hn

/-- A match that is charged for more than its log has room for. -/
theorem cutOff_of_charge (hg : c.Fresh g) (hc : c.WellFormed) (hn : n ≠ 0) {p : Point}
    {d : Demand} (hp : Reaches (g.outset none) p) (hd : p.demand? = some d)
    (hgame : d.game = p.session.game)
    (hevents : p.session.log.events.toList = (g.play none).events.take n)
    (hcut : Reaches (g.outset (some n))
      ⟨⟨d.charge.game, { p.session.log.limited n with refused := true }⟩, .round⟩) :
    g.CutOff c n := by
  have hplay := play_of_isFinal hcut (isFinal_round_iff.mpr (.inl rfl))
  dsimp only at hplay
  rw [if_pos rfl] at hplay
  obtain ⟨deaths, hcourse⟩ := exists_course_of_reaches hp
  have hsettled : Settled c.contestants.length deaths p :=
    settled_of_course (hg.settled_outset hc) hcourse
  have hrules : p.session.game.rules = c.rules :=
    (rules_of_reaches hp).trans ((g.outset_keeps none).1.trans (hg.spec hc).1)
  constructor
  · rw [hplay]
  · rw [hplay]
    exact hevents
  · rw [hplay, ← hrules]
    dsimp only [Demand.charge]
    rw [finished_charge, players_charge, hgame]
    exact ⟨hsettled.running, fun p hp => hsettled.recorded.uncredited hp⟩
  · intro hzero
    exact absurd hzero hn
  · intro
    refine ⟨p, d, hp, hd, hevents, ?_⟩
    rw [hplay]

/-- A match whose log has room for `n` events is the beginning of the whole match, with
`n` events if that has more of them, and else the whole match. -/
theorem play_limited (hc : c.Accepted) (hg : c.Fresh g) (n : Nat) :
    (∃ report, (g.play none).result = .ok report) ∧
      (n < (g.play none).events.length → g.CutOff c n) ∧
      ((g.play none).events.length ≤ n → g.play (some n) = g.play none) := by
  have hwell := hc.wellFormed
  have hcycle : g.cycle = 0 := (hg.spec hwell).2.1
  obtain ⟨s, hs, hover, -, -, hresult⟩ := exists_end hg hwell
  have hopen : s.log.refused = false :=
    (invariant (fun _ _ => unlimited_step) g.unlimited_outset hs).2
  have hwhole := play_of_isFinal hs (isFinal_round_iff.mpr (.inr hover))
  rw [if_neg (by simp [hopen])] at hwhole
  have hlength : (g.play none).events.length = s.log.events.size := by
    rw [hwhole, Array.length_toList]
  refine ⟨⟨_, hresult⟩, ?_⟩
  rw [hlength]
  by_cases hn : n = 0
  · have hpos : 0 < s.log.events.size := events_pos_of_reaches hcycle hs
    subst hn
    exact ⟨fun _ => cutOff_zero hg hwell, fun hnone => by omega⟩
  · have hroom : (g.outset none).session.log.events.size ≤ n := by
      rw [size_events_outset hcycle]
      exact Nat.pos_of_ne_zero hn
    have hreaches := reaches_limited g.unlimited_outset hroom hs
    rw [← outset_limited hcycle hn] at hreaches
    obtain ⟨hle, hlimited⟩ | ⟨hlt, p, d, hp, hd, hgame, hevents, hcut⟩ := hreaches
    · have hle : s.log.events.size ≤ n := hle
      refine ⟨fun hlt => by omega, fun _ => ?_⟩
      have hplay := play_of_isFinal hlimited (isFinal_round_iff.mpr (.inr hover))
      rw [if_neg (by simp [EventLog.limited, hopen])] at hplay
      rw [hplay, hwhole]
      rfl
    · have hlt : n < s.log.events.size := hlt
      refine ⟨fun _ => ?_, fun hle => by omega⟩
      have hevents : p.session.log.events.toList = (g.play none).events.take n := by
        rw [hwhole, hevents]
      exact cutOff_of_charge hg hwell hn hp hd hgame hevents hcut

end Game

namespace Configuration

/-- The duel in which the first player dies has three events. -/
theorem play_limited_trappedDuel :
    duel.Accepted ∧ duel.Fresh trappedDuel ∧ (trappedDuel.play none).events.length = 3 ∧
      trappedDuel.CutOff duel 2 ∧ trappedDuel.play (some 3) = trappedDuel.play none := by
  have hthree : (trappedDuel.play none).events.length = 3 := by decide +kernel
  have hfresh : duel.Fresh trappedDuel := fresh_clearedDuel.patch _
  obtain ⟨-, htwo, -⟩ := Game.play_limited accepted_duel hfresh 2
  obtain ⟨-, -, hall⟩ := Game.play_limited accepted_duel hfresh 3
  exact ⟨accepted_duel, hfresh, hthree, htwo (by omega), hall (by omega)⟩

end Configuration
end CoreWar
