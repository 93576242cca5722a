import CoreWar.Proofs.Match.Demands
import CoreWar.Proofs.Match.Settlement

/-!
# The timeline of a match

The log of a match that is played for the first time begins with the event that places
the programs.  All other events are charges, and they follow one another like the demands
that they tell of: the first one at cycle one, each later one where the charge before has
left the count of cycles, and the results show where the last one has left it.  So an
instruction that was completed ended just where the next event begins.

Where a call has given results the match is over, and its cells are credited.  Another
call finds nothing to do (`Game.play_again`).
-/

namespace CoreWar

namespace Event

/-- The cycle at which an event begins. -/
def cycle : Event → Nat
  | init first _ => first
  | exec first _ _ _ => first

/-- The cycle at which the instruction of an event was completed. -/
def end? : Event → Option Nat
  | init _ _ => none
  | exec _ _ _ last? => last?

/-- Charges that follow one another from one cycle to another. -/
structure Timed (first : Nat) (events : List Event) (last : Nat) : Prop where
  isExec : ∀ e ∈ events, e.isExec = true
  head : ∀ e ∈ events.head?, e.cycle = first
  increasing : (events.map cycle).Pairwise (· < ·)
  /-- An instruction ends where the next event begins, or where all end. -/
  next : ∀ before e after, events = before ++ e :: after →
    ∀ n ∈ e.end?, (after.head?.map cycle).getD last = n

end Event

namespace Demand

variable {d : Demand} {first last : Nat} {ds : List Demand}

theorem end?_event : d.event.end? = if d.succeeds then some (d.game.cycle + d.paid) else none :=
  rfl

/-- The event of a charge has an end exactly if the instruction was executed and did not
fail. -/
theorem isSome_end?_event : d.event.end?.isSome = true ↔
    d.isMet = true ∧ d.result.isOk = true := by
  rw [end?_event, ← Bool.and_eq_true, ← succeeds]
  cases d.succeeds with
  | true => simp
  | false => simp

theorem Tiles.head (h : Tiles first ds last) : ∀ d ∈ ds.head?, d.game.cycle = first := by
  intro d hd
  cases ds with
  | nil => cases hd
  | cons e ds =>
      obtain rfl : e = d := Option.some.inj hd
      exact h.1

theorem Tiles.pairwise (h : Tiles first ds last) :
    (ds.map fun d => d.game.cycle).Pairwise (· < ·) := by
  induction ds generalizing first with
  | nil => exact .nil
  | cons d ds ih =>
      obtain ⟨hcycle, hbudget, hrest⟩ := h
      have hpaid := paid_pos hbudget
      refine .cons ?_ (ih hrest)
      intro n hn
      obtain ⟨e, he, rfl⟩ := List.mem_map.mp hn
      have hlater := (hrest.mem_range he).1
      show d.game.cycle < e.game.cycle
      omega

/-- The count of cycles behind a demand is where the next one is made, or the last. -/
theorem Tiles.next {before after : List Demand} (h : Tiles first (before ++ d :: after) last) :
    (after.head?.map fun e => e.game.cycle).getD last = d.game.cycle + d.paid := by
  induction before generalizing first with
  | nil =>
      obtain ⟨rfl, -, hrest⟩ := h
      cases after with
      | nil => exact hrest.symm
      | cons e after => exact hrest.1
  | cons e before ih => exact ih h.2.2

theorem Tiles.timed (h : Tiles first ds last) : Event.Timed first (ds.map event) last := by
  constructor
  · intro e he
    obtain ⟨d, -, rfl⟩ := List.mem_map.mp he
    rfl
  · intro e he
    rw [List.head?_map] at he
    obtain ⟨d, hd, rfl⟩ := Option.map_eq_some_iff.mp he
    exact h.head d hd
  · rw [List.map_map]
    exact h.pairwise
  · intro before e after heq n hn
    obtain ⟨xs, ys, rfl, -, hys⟩ := List.map_eq_append_iff.mp heq
    obtain ⟨d, zs, rfl, rfl, rfl⟩ := List.map_eq_cons_iff.mp hys
    rw [List.head?_map, Option.map_map]
    refine h.next.trans ?_
    rw [end?_event] at hn
    split at hn
    · exact Option.some.inj hn
    · cases hn

end Demand

namespace Game

open Demand Point

/-! ## The first call -/

/-- The log and the results of a match that is played with a log that takes every event,
given the demands of the match. -/
structure Chronicled (g : Game) (ds : List Demand) (r : Report) : Prop where
  course : ∃ s, Pays (g.outset none) ds ⟨s, .round⟩ ∧ IsFinal ⟨s, .round⟩
  result_eq : (g.play none).result = .ok r
  events_eq : (g.play none).events = .init 0 g.starts :: ds.map Demand.event
  tiles : Tiles 1 ds r.cycles
  timed : Event.Timed 1 (ds.map Demand.event) r.cycles
  ends : ∀ d ∈ ds, d.event.end?.isSome = true ↔ d.isMet = true ∧ d.result.isOk = true

variable {c : Configuration} {g : Game}

theorem exists_chronicled (hc : c.WellFormed) (hg : c.Fresh g) :
    ∃ ds r, g.Chronicled ds r := by
  obtain ⟨_, -, -, -, -, hresult⟩ := exists_end hg hc
  obtain ⟨s, hs, hevents, hplay⟩ := g.play_cases none
  obtain ⟨ds, hpays⟩ := exists_pays_of_reaches hs
  have hlog := events_of_pays g.unlimited_outset hpays
  have htiles := tiles_of_pays hpays
  rw [outset_of_not_begun (hg.spec hc).2.1] at hlog htiles
  rcases hplay with ⟨-, hplay⟩ | ⟨-, hover, hplay⟩ | ⟨-, -, -, hplay⟩
  · rw [hplay] at hresult
    cases hresult
  · have htiles : Tiles 1 ds s.game.finish.report.cycles := by
      change Tiles 1 ds s.game.finish.cycle
      rw [s.game.finish_keeps.2.2.1]
      exact htiles
    refine ⟨ds, s.game.finish.report, ?_⟩
    constructor
    · exact ⟨s, hpays, isFinal_round_iff.mpr (.inr hover)⟩
    · rw [hplay]
    · rw [hevents]
      exact hlog
    · exact htiles
    · exact htiles.timed
    · exact fun d _ => isSome_end?_event
  · rw [hplay] at hresult
    cases hresult

/-! ## Another call -/

/-- A call that gives results leaves a match that has begun, is over and whose cells are
credited. -/
theorem isOver_play {capacity : Option Nat} {r : Report}
    (h : (g.play capacity).result = .ok r) :
    (g.play capacity).game.cycle ≠ 0 ∧ (g.play capacity).game.isOver = true ∧
      (g.play capacity).game.finished = true ∧ (g.play capacity).game.report = r := by
  obtain ⟨s, hs, -, hplay⟩ := g.play_cases capacity
  rcases hplay with ⟨-, hplay⟩ | ⟨hopen, hover, hplay⟩ | ⟨-, -, -, hplay⟩
  · rw [hplay] at h
    cases h
  · rw [hplay] at h ⊢
    refine ⟨?_, ?_, s.game.finished_finish, Except.ok.inj h⟩
    · rw [s.game.finish_keeps.2.2.1]
      -- A log that has refused the first event would not have taken any other.
      have hle : (g.outset capacity).session.game.cycle ≤ s.game.cycle := cycle_le_of_reaches hs
      by_cases hcycle : g.cycle = 0
      · rw [outset_of_not_begun hcycle] at hs hle
        cases hlog : (EventLog.push { capacity } (.init 0 g.starts)).refused with
        | true =>
            have hfinal := (isFinal_round_iff.mpr (.inl hlog)).eq_of_reaches hs
            rw [Point.mk.injEq] at hfinal
            rw [hfinal.1] at hopen
            exact absurd (hlog.symm.trans hopen) (by decide)
        | false =>
            simp only [hlog, Bool.false_eq_true, if_false] at hle
            omega
      · rw [outset_of_begun hcycle] at hle
        have hle : g.cycle ≤ s.game.cycle := hle
        omega
    · rw [isOver_finish]
      exact hover
  · rw [hplay] at h
    cases h

/-- After a call that gives results, another call gives the same ones.  It adds no event
and changes nothing. -/
theorem play_again {capacity : Option Nat} {r : Report} (h : (g.play capacity).result = .ok r)
    (capacity' : Option Nat) :
    (g.play capacity).game.play capacity' = ⟨(g.play capacity).game, [], .ok r⟩ := by
  obtain ⟨hcycle, hover, hfinished, hreport⟩ := isOver_play h
  rw [play_eq_of_isOver hcycle hover hfinished, hreport]

end Game

namespace Configuration

variable {c : Configuration} {g : Game}

/-- The starts are where the threads of the players stand, player by player. -/
theorem Fresh.starts_eq (hg : c.Fresh g) (hc : c.WellFormed) :
    g.players.toList.map (fun x => (x.pid.toNat, x.queue.map Thread.ip)) =
      g.starts.zipIdx.map fun x => (x.2 + 1, [x.1]) := by
  have hle := hc.players_le
  obtain ⟨ps, m, -, rfl⟩ := (fresh_iff hc).mp hg
  apply List.ext_getElem
  · simp [initial]
  · intro i hi hi'
    have hlt : i < c.contestants.length := by simpa [initial] using hi
    have hpid : (UInt8.ofNat (i + 1)).toNat = i + 1 := by
      rw [UInt8.toNat_ofNat']
      omega
    simpa [initial, entered, pidOf] using hpid

end Configuration

namespace Game

/-- The events of a match that is played for the first time tell of a count of cycles
without gaps, and playing a match again that has given its results changes nothing. -/
theorem chronicled_of_fresh {c : Configuration} {g : Game} (hc : c.Accepted) (hg : c.Fresh g) :
    g.players.toList.map (fun x => (x.pid.toNat, x.queue.map Thread.ip)) =
        g.starts.zipIdx.map (fun x => (x.2 + 1, [x.1])) ∧
      (∃ ds r, g.Chronicled ds r) ∧
      ∀ (g' : Game) (capacity : Option Nat) (r : Report),
        (g'.play capacity).result = .ok r → ∀ capacity',
          (g'.play capacity).game.play capacity' = ⟨(g'.play capacity).game, [], .ok r⟩ :=
  ⟨hg.starts_eq hc.wellFormed, exists_chronicled hc.wellFormed hg,
    fun _ _ _ h => play_again h⟩

end Game

namespace Configuration

/-- The trapped duel ends with the death of the first player, and the second one has
completed an instruction. -/
theorem chronicled_trappedDuel :
    duel.Accepted ∧ duel.Fresh trappedDuel ∧ (∃ ds r, trappedDuel.Chronicled ds r) ∧
      (trappedDuel.play none).events =
        [.init 0 [0, 2], .exec 1 1 0 none, .exec 2 2 2 (some 3)] :=
  ⟨accepted_duel, fresh_clearedDuel.patch _,
    (Game.chronicled_of_fresh accepted_duel (fresh_clearedDuel.patch _)).2.1,
    by decide +kernel⟩

end Configuration
end CoreWar
