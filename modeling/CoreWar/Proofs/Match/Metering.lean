import CoreWar.Proofs.Match.Placement
import CoreWar.Proofs.Match.Tally

/-!
# Matches keep to their cycles

A round begins only if all players together cannot spend the cycles left.  So at
any time the cycles counted, with what is left of the budget in hand and the
budgets of the players to come, stay below the limit: what is `committed` grows
only where a round begins.

From this follow the bounds on the cycles reported and on the events of a match,
and that the counters of a match never leave their range.  With the count of the
living it also follows that a match comes to an end.
-/

namespace CoreWar

/-! ## Reserves -/

namespace Game

/-- The cycles that the players from an index on can take in a turn each. -/
def reserveFrom (g : Game) (i : Nat) : Nat :=
  reserveOf g.rules.cyclesPerTurn (g.players.toList.drop i)

variable {g : Game} {i : Nat}

theorem reserveFrom_zero : g.reserveFrom 0 = g.reserve := by
  rw [reserve_eq, reserveFrom, List.drop_zero]

theorem reserveFrom_of_next?_eq_none (hi : i < g.players.size) (h : g.next? i = none) :
    g.reserveFrom i = g.reserveFrom (i + 1) := by
  have hp := Array.getElem?_eq_getElem hi
  have hdead : g.players[i].isAlive = false := next?_eq_none_iff.mp h _ hp
  rw [reserveFrom, reserveOf_drop _ hp, hdead, if_neg (by decide), Nat.zero_add, reserveFrom]

theorem reserveFrom_of_next?_eq_some {t : Thread} {p : Player} (h : g.next? i = some (t, p)) :
    g.reserveFrom i = p.turnBudget g.rules.cyclesPerTurn + g.reserveFrom (i + 1) := by
  obtain ⟨q, hq, hqueue, hp⟩ := next?_eq_some_iff.mp h
  have hlives : q.isAlive = true := by simp [Player.isAlive, hqueue]
  have hbudget : p.turnBudget g.rules.cyclesPerTurn = q.turnBudget g.rules.cyclesPerTurn := by
    rw [hp]
    rfl
  rw [reserveFrom, reserveOf_drop _ hq, if_pos hlives, hbudget, reserveFrom]

/-- What happens to a player whose turn is over does not matter. -/
theorem reserveFrom_setPlayer (p : Player) :
    (g.setPlayer i p).reserveFrom (i + 1) = g.reserveFrom (i + 1) := by
  simp [reserveFrom, setPlayer, List.drop_set]

theorem reserveFrom_requeue (t : Thread) :
    (g.requeue i t).reserveFrom (i + 1) = g.reserveFrom (i + 1) := by
  cases hp : g.players[i]? with
  | none =>
      have hsame : g.players.modify i (·.requeue t) = g.players := by
        apply Array.ext_getElem?
        intro j
        rw [Array.getElem?_modify]
        split
        next hij =>
          subst hij
          rw [hp, Option.map_none]
        · rfl
      rw [reserveFrom, requeue, hsame, reserveFrom]
  | some p =>
      have hset := modify_eq_setIfInBounds (·.requeue t) hp
      rw [requeue, hset]
      exact reserveFrom_setPlayer (p.requeue t)

theorem reserveFrom_charge (pid : UInt8) (t : Thread) (budget : Nat) :
    (g.charge pid t budget).game.reserveFrom i = g.reserveFrom i := by
  rw [reserveFrom, players_charge, rules_charge, reserveFrom]

/-- Credits do not change what players can take. -/
theorem reserveFrom_kill (index : Nat) (pid : UInt8) (t : Thread) :
    (g.kill index pid t).reserveFrom i = g.reserveFrom i := by
  have hsame := congrArg Array.toList (g.map_unscored_kill pid t index)
  rw [Array.toList_map, Array.toList_map] at hsame
  rw [reserveFrom, ← reserveOf_map_unscored, List.map_drop, hsame, ← List.map_drop,
    reserveOf_map_unscored, rules_kill, reserveFrom]

end Game

namespace Point

variable {p q : Point}

/-- The limit on the cycles of a match. -/
def limit (p : Point) : Nat := p.session.game.rules.maxCycles

/-- The cycles that are counted, and those that may be counted before another
round begins. -/
def committed : Point → Nat
  | ⟨⟨g, _⟩, .round⟩ => g.cycle
  | ⟨⟨g, _⟩, .turn i⟩ => g.cycle + g.reserveFrom i
  | ⟨⟨g, _⟩, .hand i _ _ budget⟩ => g.cycle + budget + g.reserveFrom (i + 1)

theorem cycle_le_committed (p : Point) : p.session.game.cycle ≤ p.committed := by
  obtain ⟨⟨g, log⟩, stage⟩ := p
  cases stage with
  | round => exact Nat.le_refl _
  | turn i => exact Nat.le_add_right _ _
  | hand i pid t budget => exact Nat.le_trans (Nat.le_add_right _ _) (Nat.le_add_right _ _)

/-- What is committed grows only where a round begins, and not to the limit. -/
theorem committed_step (h : Step p q) : q.committed ≤ p.committed ∨ q.committed < q.limit := by
  cases h with
  | @enter s hlog hover =>
      simp only [Game.isOver, Bool.or_eq_false_iff, decide_eq_false_iff_not] at hover
      refine .inr ?_
      change s.game.cycle + s.game.reserveFrom 0 < s.game.rules.maxCycles
      rw [Game.reserveFrom_zero]
      omega
  | leave => exact .inl (Nat.le_add_right _ _)
  | @skip s i hlog hi hnext =>
      refine .inl ?_
      change s.game.cycle + s.game.reserveFrom (i + 1) ≤ s.game.cycle + s.game.reserveFrom i
      rw [Game.reserveFrom_of_next?_eq_none hi hnext]
  | @take s i t p hlog hi hnext =>
      -- The budget of the player moves from the reserve into the hand.
      refine .inl (Nat.le_of_eq ?_)
      change s.game.cycle + p.turnBudget s.game.rules.cyclesPerTurn
        + (s.game.setPlayer i p).reserveFrom (i + 1) = s.game.cycle + s.game.reserveFrom i
      rw [Game.reserveFrom_setPlayer, Game.reserveFrom_of_next?_eq_some hnext, Nat.add_assoc]
  | @spent s i pid t hlog =>
      refine .inl (Nat.le_of_eq ?_)
      change s.game.cycle + (s.game.requeue i t).reserveFrom (i + 1)
        = s.game.cycle + 0 + s.game.reserveFrom (i + 1)
      rw [Game.reserveFrom_requeue]
      rfl
  | @refuse s i pid t budget hlog hbudget hpush =>
      have hsum := s.game.cycle_charge_add_budget pid t budget
      refine .inl ?_
      change (s.game.charge pid t budget).game.cycle
        ≤ s.game.cycle + budget + s.game.reserveFrom (i + 1)
      omega
  | @die s i pid t budget hlog hbudget hpush hfault =>
      have hsum := s.game.cycle_charge_add_budget pid t budget
      refine .inl ?_
      change (s.game.charge pid t budget).game.cycle
        + ((s.game.charge pid t budget).game.kill i pid
            (s.game.charge pid t budget).thread).reserveFrom (i + 1)
        ≤ s.game.cycle + budget + s.game.reserveFrom (i + 1)
      rw [Game.reserveFrom_kill, Game.reserveFrom_charge]
      omega
  | @pay s i pid t budget hlog hbudget hpush hfault =>
      -- What the budget loses is counted.
      have hsum := s.game.cycle_charge_add_budget pid t budget
      refine .inl (Nat.le_of_eq ?_)
      change (s.game.charge pid t budget).game.cycle + (s.game.charge pid t budget).budget
        + (s.game.charge pid t budget).game.reserveFrom (i + 1)
        = s.game.cycle + budget + s.game.reserveFrom (i + 1)
      rw [Game.reserveFrom_charge, hsum]

/-! ## Debts and budgets -/

/-- What threads owe and what is left to spend stays below a bound. -/
structure Bounded (bound : Nat) (p : Point) : Prop where
  queued : p.session.game.EveryQueue fun queue => ∀ t ∈ queue, t.debt < bound
  hand : ∀ i pid t budget, p.stage = .hand i pid t budget → t.debt < bound ∧ budget < bound

theorem bounded_step {bound : Nat}
    (hcost : ∀ op, p.session.game.rules.costs.cost op < bound) (hbound : UInt32.size ≤ bound)
    (hp : Bounded bound p) (h : Step p q) : Bounded bound q := by
  obtain ⟨hqueued, hhand⟩ := hp
  cases h with
  | enter => exact ⟨hqueued, by simp⟩
  | leave => exact ⟨hqueued, by simp⟩
  | skip => exact ⟨hqueued, by simp⟩
  | @take s i t p hlog hi hnext =>
      obtain ⟨q, hq, hqueue, -⟩ := Game.next?_eq_some_iff.mp hnext
      have hold := hqueued i q hq
      rw [hqueue, List.forall_mem_cons] at hold
      refine ⟨Game.EveryQueue.setIfInBounds hqueued (p := p) hold.2 rfl, ?_⟩
      rintro _ _ _ _ ⟨⟩
      exact ⟨hold.1, Nat.lt_of_lt_of_le (Game.turnBudget_lt p _) hbound⟩
  | @spent s i pid t hlog =>
      have ht := (hhand _ _ _ _ rfl).1
      refine ⟨Game.EveryQueue.requeue hqueued fun p hp => ?_, by simp⟩
      rw [List.forall_mem_append]
      exact ⟨hqueued i p hp, by simpa using ht⟩
  | refuse =>
      exact ⟨Game.EveryQueue.of_map_unscored_eq hqueued (by rw [Game.players_charge]), by simp⟩
  | @die s i pid t budget hlog hbudget hpush hfault =>
      have hsame := (s.game.charge pid t budget).game.map_unscored_kill pid
        (s.game.charge pid t budget).thread i
      rw [Game.players_charge] at hsame
      exact ⟨Game.EveryQueue.of_map_unscored_eq hqueued hsame, by simp⟩
  | @pay s i pid t budget hlog hbudget hpush hfault =>
      obtain ⟨ht, hb⟩ := hhand _ _ _ _ rfl
      refine ⟨Game.EveryQueue.of_map_unscored_eq hqueued (by rw [Game.players_charge]), ?_⟩
      rintro _ _ _ _ ⟨⟩
      exact ⟨s.game.debt_charge_lt pid t budget hcost ht,
        Nat.lt_trans (s.game.budget_charge_lt pid t hbudget) hb⟩

/-! ## Events -/

end Point

namespace Event

/-- Whether an event tells of a charge. -/
def isExec : Event → Bool
  | init _ _ => false
  | exec _ _ _ _ => true

/-- The cycles that a charge tells of come before a limit. -/
def Before (limit : Nat) : Event → Prop
  | init _ _ => True
  | exec cycle _ _ end? => cycle < limit ∧ ∀ last ∈ end?, last < limit

end Event

namespace Point

/-- Every charge recorded lies before the limit, and has counted a cycle. -/
structure Logged (p : Point) : Prop where
  before : ∀ e ∈ p.session.log.events, e.Before p.limit
  count_lt : p.session.log.events.countP Event.isExec < p.session.game.cycle

theorem logged_step (hcommitted : p.committed < p.limit ∨ p.stage = .round) (hp : Logged p)
    (h : Step p q) : Logged q := by
  have hlimit : q.limit = p.limit := congrArg Rules.maxCycles (rules_step h)
  obtain ⟨hlog, hcycle⟩ | ⟨i, pid, t, budget, hstage, hbudget, hlog, hcycle⟩ := log_step h
  · exact ⟨by rw [hlog, hlimit]; exact hp.before, by rw [hlog, hcycle]; exact hp.count_lt⟩
  · -- A thread is in hand, so its budget is part of what is committed.
    have hbelow : p.committed < p.limit := by
      obtain h | h := hcommitted
      · exact h
      · rw [hstage] at h
        cases h
    have hhand : p.session.game.cycle + budget ≤ p.committed := by
      obtain ⟨⟨g, log⟩, stage⟩ := p
      subst hstage
      exact Nat.le_add_right _ _
    have hsum := p.session.game.cycle_charge_add_budget pid t budget
    have hlater := p.session.game.cycle_lt_charge pid t budget hbudget
    obtain ⟨end?, hevent, hend⟩ := p.session.game.event_charge pid t budget
    cases hfull : p.session.log.isFull with
    | true =>
        have hsame : q.session.log.events = p.session.log.events := by
          rw [hlog, EventLog.events_push_of_full hfull]
        refine ⟨by rw [hsame, hlimit]; exact hp.before, ?_⟩
        rw [hsame, hcycle]
        exact Nat.lt_trans hp.count_lt hlater
    | false =>
        have hpush : q.session.log.events = p.session.log.events.push
            (.exec p.session.game.cycle pid t.ip end?) := by
          rw [hlog, EventLog.events_push_of_room hfull, hevent]
        constructor
        · intro e he
          rw [hpush, Array.mem_push] at he
          rw [hlimit]
          obtain he | rfl := he
          · exact hp.before e he
          · refine ⟨by omega, fun last hlast => ?_⟩
            rw [hend last hlast]
            omega
        · have hcount := hp.count_lt
          rw [hpush, Array.countP_push, hcycle]
          simp only [Event.isExec, if_true]
          omega

/-! ## The course of a metered match -/

/-- What holds all along a match of a configuration whose log takes every
event. -/
structure Kept (c : Configuration) (p : Point) : Prop where
  rules : p.session.game.rules = c.rules
  size : p.session.game.players.size = c.contestants.length
  alive_le : p.session.game.alive ≤ c.contestants.length
  unlimited : p.session.log.capacity = none ∧ p.session.log.refused = false
  tallied : Tallied 0 p
  within : p.committed < p.limit ∨ p.stage = .round ∧ p.session.game.cycle = 1 ∧ p.limit = 1
  bounded : Bounded UInt32.size p
  logged : Logged p

theorem within_step
    (hp : p.committed < p.limit ∨ p.stage = .round ∧ p.session.game.cycle = 1 ∧ p.limit = 1)
    (h : Step p q) : q.committed < q.limit := by
  have hlimit : q.limit = p.limit := congrArg Rules.maxCycles (rules_step h)
  obtain hgrow | hround := committed_step h
  · obtain hp | ⟨hstage, hcycle, hone⟩ := hp
    · omega
    · -- A round cannot begin if its first cycle is already the limit.
      obtain ⟨s, stage⟩ := p
      subst hstage
      cases h with
      | enter hlog hover =>
          have hcycle : s.game.cycle = 1 := hcycle
          have hone : s.game.rules.maxCycles = 1 := hone
          simp [Game.isOver, hcycle, hone] at hover
  · exact hround

theorem kept_step {c : Configuration} (hc : c.WellFormed) (hp : Kept c p) (h : Step p q) :
    Kept c q := by
  have hunlimited := unlimited_step hp.unlimited h
  have hcost : ∀ op, p.session.game.rules.costs.cost op < UInt32.size := by
    rw [hp.rules]
    exact hc.cost_lt
  have htallied : Tallied 0 q := by
    obtain ⟨-, htallied⟩ | ⟨hrefused, -⟩ := tallied_step hp.tallied h
    · exact htallied
    · simp [hunlimited.2] at hrefused
  have hcommitted : p.committed < p.limit ∨ p.stage = .round := hp.within.imp_right And.left
  exact
    { rules := (rules_step h).trans hp.rules
      size := (size_step h).trans hp.size
      alive_le := Nat.le_trans (alive_step h) hp.alive_le
      unlimited := hunlimited
      tallied := htallied
      within := .inl (within_step hp.within h)
      bounded := bounded_step hcost (Nat.le_refl _) hp.bounded h
      logged := logged_step hcommitted hp.logged h }

theorem kept_outset {c : Configuration} {g : Game} (hc : c.WellFormed) (hg : c.Fresh g) :
    Kept c (g.outset none) := by
  obtain ⟨hrules, hcycle, halive, start, hplayers⟩ := hg.spec hc
  have hmax := hc.maxCycles_pos
  rw [Game.outset_of_not_begun hcycle]
  exact
    { rules := hrules
      size := hg.size_eq hc
      alive_le := Nat.le_of_eq halive
      unlimited := ⟨rfl, rfl⟩
      tallied := ⟨hg.sparse hc, (hg.talliedBut hc).alive_eq⟩
      within := by
        change 1 < g.rules.maxCycles ∨ _ ∧ 1 = 1 ∧ g.rules.maxCycles = 1
        rw [hrules]
        by_cases hone : c.rules.maxCycles = 1
        · exact .inr ⟨rfl, rfl, hone⟩
        · exact .inl (by omega)
      bounded := by
        refine ⟨?_, by simp⟩
        intro i p hp t ht
        have hmem : p ∈ g.players.toList := Array.mem_toList_iff.mpr (Array.mem_of_getElem? hp)
        rw [hplayers] at hmem
        obtain ⟨k, -, rfl⟩ := List.mem_map.mp hmem
        obtain rfl : t = { ip := UInt16.ofNat (start k) } := List.mem_singleton.mp ht
        exact (by decide : 0 < UInt32.size)
      logged := by
        refine ⟨?_, Nat.zero_lt_one⟩
        intro e he
        obtain rfl : e = .init 0 g.starts := Array.mem_singleton.mp he
        exact trivial }

/-- The counters of a match are in the range of their machine integers, and stay
there through the next charge and the next death. -/
structure CountersFit (p : Point) : Prop where
  cycle_lt : p.session.game.cycle < UInt64.size
  reserve_lt : p.session.game.reserve < UInt64.size
  alive_lt : p.session.game.alive < UInt64.size
  queued : p.session.game.EveryQueue fun queue => ∀ t ∈ queue, t.debt < UInt32.size
  hand : ∀ i pid t budget, p.stage = .hand i pid t budget →
    t.debt < UInt32.size ∧ budget < UInt32.size ∧
      p.session.game.rules.costs.owed p.session.game.arena t < UInt32.size ∧
      p.session.game.cycle + min budget
        (p.session.game.rules.costs.owed p.session.game.arena t) < UInt64.size ∧
      0 < p.session.game.alive

theorem Kept.cycle_le {c : Configuration} (hp : Kept c p) :
    p.session.game.cycle < c.rules.maxCycles ∨
      p.session.game.cycle = 1 ∧ c.rules.maxCycles = 1 := by
  have hlimit : p.limit = c.rules.maxCycles := congrArg Rules.maxCycles hp.rules
  have hle := p.cycle_le_committed
  rw [← hlimit]
  obtain hp | ⟨-, hcycle, hone⟩ := hp.within
  · exact .inl (by omega)
  · exact .inr ⟨hcycle, hone⟩

theorem Kept.countersFit {c : Configuration} (hp : Kept c p) (hc : c.WellFormed) :
    CountersFit p := by
  have hmax := hc.maxCycles_le
  have hplayers := hc.players_le
  have hcycle := hp.cycle_le
  have h32 : UInt32.size = 4294967296 := rfl
  have h64 : UInt64.size = 18446744073709551616 := rfl
  constructor
  · omega
  · have hle := Game.reserveOf_le p.session.game.rules.cyclesPerTurn
      p.session.game.players.toList
    rw [Array.length_toList, hp.size, h32] at hle
    rw [Game.reserve_eq]
    omega
  · have hle := hp.alive_le
    omega
  · exact hp.bounded.queued
  · intro i pid t budget hstage
    obtain ⟨ht, hb⟩ := hp.bounded.hand i pid t budget hstage
    have hcost : ∀ op, p.session.game.rules.costs.cost op < UInt32.size := by
      rw [hp.rules]
      exact hc.cost_lt
    have howed := CostTable.owed_lt p.session.game.arena hcost ht
    refine ⟨ht, hb, howed, by omega, ?_⟩
    have htallied := hp.tallied
    obtain ⟨⟨g, log⟩, stage⟩ := p
    subst hstage
    have halive : g.alive = g.living + 0 + 1 := htallied.2.2
    exact halive ▸ Nat.succ_pos _

end Point

namespace Game

open Point

/-- A match that is played with a log that takes every event comes to an end, and
keeps to its cycles. -/
structure Metered (g : Game) : Prop where
  halts : (g.outset none).Halts
  /-- The call gives results, and the cycles they show stay below the limit, or are
  one if the limit is. -/
  report : ∃ r, (g.play none).result = .ok r ∧ r.cycles ≤ max 1 (g.rules.maxCycles - 1)
  /-- So do the cycles between two rounds. -/
  boundary : ∀ s, Reaches (g.outset none) ⟨s, .round⟩ →
    s.game.cycle < g.rules.maxCycles ∨ s.game.cycle = 1 ∧ g.rules.maxCycles = 1
  before : ∀ e ∈ (g.play none).events, e.Before g.rules.maxCycles
  count_le : (g.play none).events.countP Event.isExec ≤ g.rules.maxCycles - 2
  countersFit : ∀ p, Reaches (g.outset none) p → p.CountersFit

theorem metered_of_fresh {c : Configuration} {g : Game} (hc : c.Accepted) (hg : c.Fresh g) :
    g.Metered := by
  have hwell := hc.wellFormed
  have hrules : g.rules = c.rules := (hg.spec hwell).1
  have hkept : ∀ p, Reaches (g.outset none) p → Kept c p := fun p hp =>
    invariant (fun _ _ => kept_step hwell) (kept_outset hwell hg) hp
  have hhalts : (g.outset none).Halts := by
    by_cases h : (g.outset none).Halts
    · exact h
    · -- Otherwise a round would begin with nobody left, but then nobody counts as alive.
      obtain ⟨s, hs, -, hover, hliving⟩ := not_halts_iff.mp h
      have halive : s.game.alive = s.game.living + 0 := (hkept _ hs).tallied.2
      simp [isOver, halive, hliving] at hover
  obtain ⟨s, hs, hevents, hplay⟩ := g.play_cases none
  have hend := hkept _ hs
  have hcycle : s.game.cycle < g.rules.maxCycles ∨ s.game.cycle = 1 ∧ g.rules.maxCycles = 1 := by
    rw [hrules]
    exact hend.cycle_le
  have hlimit : Point.limit ⟨s, .round⟩ = g.rules.maxCycles := by
    rw [hrules]
    exact congrArg Rules.maxCycles hend.rules
  constructor
  · exact hhalts
  · obtain ⟨hrefused, -⟩ | ⟨-, -, hplay⟩ | ⟨-, -, -, hplay⟩ := hplay
    · have haccepted : s.log.refused = false := hend.unlimited.2
      simp [haccepted] at hrefused
    · refine ⟨s.game.finish.report, by rw [hplay], ?_⟩
      have hsame : s.game.finish.report.cycles = s.game.cycle := by
        unfold finish report
        dsimp only
        split <;> rfl
      rw [hsame]
      omega
    · exact absurd (by rw [hplay]) ((halts_outset_iff g none).mp hhalts)
  · intro r hr
    rw [hrules]
    exact (hkept _ hr).cycle_le
  · intro e he
    rw [hevents, Array.mem_toList_iff] at he
    rw [← hlimit]
    exact hend.logged.before e he
  · have hcount : s.log.events.countP Event.isExec < s.game.cycle := hend.logged.count_lt
    rw [hevents, Array.countP_toList]
    omega
  · exact fun p hp => (hkept p hp).countersFit hwell

end Game

namespace Configuration

/-- The duel in an arena with a patch that is not an instruction. -/
theorem metered_duel :
    duel.Accepted ∧ ∃ g, duel.gameOf duelPlacings = .ok g ∧
      Game.Metered { g with arena := g.arena.writeBytes 7 1 [0xFF, 0x0F] } := by
  obtain ⟨g, hg, -⟩ := gameOf_placed accepted_duel.wellFormed drawable_duelPlacings
  exact ⟨accepted_duel, g, hg,
    Game.metered_of_fresh accepted_duel ⟨_, g, _, drawable_duelPlacings, hg, rfl⟩⟩

end Configuration
end CoreWar
