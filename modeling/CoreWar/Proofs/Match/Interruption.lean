import CoreWar.Proofs.Match.Metering

/-!
# Interrupted matches

When the log refuses the event of a charge, the call ends at once and the thread
in hand is lost, but its player still counts as alive.  So after any calls the
count of the living is too high by the number of interrupted ones
(`talliedBut_of_leads`).

A later call takes the lost players for living ones.  If they are more than may be
left standing, only the limit on cycles ends the match, and a match that runs out
of threads before that never ends.
-/

namespace CoreWar

open Point

/-- A call ended because the log refused the event of a charge. -/
def Played.Interrupted (played : Played) : Prop :=
  played.result = .error .logFull ∧ played.game.cycle ≠ 0

namespace Game

/-- The games that calls lead to from a game, with the number of interrupted
calls.  Each call has a log of its own, which may refuse any event or none, and the
arena may be patched between calls. -/
inductive Leads (g₀ : Game) : Nat → Game → Prop
  | start : Leads g₀ 0 g₀
  | patch {lost : Nat} {g : Game} (h : Leads g₀ lost g) (m : Arena) :
      Leads g₀ lost { g with arena := m }
  | call {lost : Nat} {g : Game} (h : Leads g₀ lost g) (capacity : Option Nat)
      (hreturns : (g.play capacity).result ≠ .error .endless)
      (hwhole : ¬(g.play capacity).Interrupted) : Leads g₀ lost (g.play capacity).game
  | interruption {lost : Nat} {g : Game} (h : Leads g₀ lost g) (capacity : Option Nat)
      (hpartial : (g.play capacity).Interrupted) :
      Leads g₀ (lost + 1) (g.play capacity).game

variable {g : Game} {lost : Nat}

/-! ## One call -/

/-- A match that begins is not at cycle zero any more, unless the log refuses to
record that it begins. -/
theorem outset_cases (h : g.TalliedBut lost) (capacity : Option Nat) :
    Tallied lost (g.outset capacity) ∧
      (((g.outset capacity).session.log.refused = true ∧
          (g.outset capacity).session.game.cycle = 0) ∨
        ((g.outset capacity).session.log.refused = false ∧
          (g.outset capacity).session.game.cycle ≠ 0)) := by
  by_cases hcycle : g.cycle = 0
  · rw [outset_of_not_begun hcycle]
    refine ⟨⟨h.sparse, h.alive_eq⟩, ?_⟩
    dsimp only
    cases hlog : (EventLog.push { capacity } (.init 0 g.starts)).refused with
    | true => exact .inl ⟨rfl, rfl⟩
    | false => exact .inr ⟨rfl, Nat.one_ne_zero⟩
  · rw [outset_of_begun hcycle]
    exact ⟨h, .inr ⟨rfl, hcycle⟩⟩

/-- A call loses a thread exactly if it is interrupted. -/
theorem talliedBut_play (h : g.TalliedBut lost) (capacity : Option Nat) :
    (¬(g.play capacity).Interrupted ∧ (g.play capacity).game.TalliedBut lost) ∨
      ((g.play capacity).Interrupted ∧ (g.play capacity).game.TalliedBut (lost + 1)) := by
  obtain ⟨htallied, houtset⟩ := outset_cases h capacity
  obtain ⟨s, hs, -, hplay⟩ := g.play_cases capacity
  obtain ⟨hrefused, hzero⟩ | ⟨haccepted, hbegun⟩ := houtset
  · -- The match has not begun: there is no step, and no thread is lost.
    have hfinal : (g.outset capacity).IsFinal := isFinal_round_iff.mpr (.inl hrefused)
    have hsame : g.outset capacity = ⟨s, .round⟩ := (hfinal.eq_of_reaches hs).symm
    rw [hsame] at htallied hrefused hzero
    have hrefused : s.log.refused = true := hrefused
    have hzero : s.game.cycle = 0 := hzero
    obtain ⟨-, hplay⟩ | ⟨haccepted, -⟩ | ⟨haccepted, -⟩ := hplay
    · refine .inl ⟨fun hinterrupted => hinterrupted.2 ?_, ?_⟩
      · rw [hplay]
        exact hzero
      · rw [hplay]
        exact htallied
    · simp [hrefused] at haccepted
    · simp [hrefused] at haccepted
  · have hcycle : (g.outset capacity).session.game.cycle ≤ s.game.cycle :=
      cycle_le_of_reaches hs
    obtain ⟨hopen, htallied⟩ | ⟨hrefused, -, htallied⟩ :=
      tallied_of_reaches haccepted htallied hs
    · have hopen : s.log.refused = false := hopen
      have htallied : s.game.TalliedBut lost := htallied
      obtain ⟨hrefused, -⟩ | ⟨-, -, hplay⟩ | ⟨-, -, -, hplay⟩ := hplay
      · simp [hopen] at hrefused
      · rw [hplay]
        exact .inl ⟨fun hinterrupted => (by cases hinterrupted.1), htallied.finish⟩
      · rw [hplay]
        exact .inl ⟨fun hinterrupted => (by cases hinterrupted.1), htallied⟩
    · -- The log has refused an event after the first, which can only be a charge.
      have hrefused : s.log.refused = true := hrefused
      obtain ⟨-, hplay⟩ | ⟨hopen, -⟩ | ⟨hopen, -⟩ := hplay
      · rw [hplay]
        exact .inr ⟨⟨rfl, by dsimp only; omega⟩, htallied⟩
      · simp [hrefused] at hopen
      · simp [hrefused] at hopen

/-! ## Any number of calls -/

/-- The count of the living is too high by the number of interrupted calls. -/
theorem talliedBut_of_leads {g₀ : Game} (h₀ : g₀.TalliedBut 0) (h : Leads g₀ lost g) :
    g.TalliedBut lost := by
  induction h with
  | start => exact h₀
  | patch h m ih => exact ⟨ih.sparse, ih.alive_eq⟩
  | call h capacity hreturns hwhole ih =>
      obtain ⟨-, htallied⟩ | ⟨hinterrupted, -⟩ := talliedBut_play ih capacity
      · exact htallied
      · exact absurd hinterrupted hwhole
  | interruption h capacity hpartial ih =>
      obtain ⟨hwhole, -⟩ | ⟨-, htallied⟩ := talliedBut_play ih capacity
      · exact absurd hpartial hwhole
      · exact htallied

/-- A call without a limit on its log loses nothing. -/
theorem keeps_of_reaches_outset (h : g.TalliedBut lost) {s : Session}
    (hs : Reaches (g.outset none) ⟨s, .round⟩) :
    s.log.refused = false ∧ s.game.TalliedBut lost ∧ s.game.rules = g.rules ∧
      s.game.lastStanding = g.lastStanding := by
  obtain ⟨hrules, hplayers⟩ := g.outset_keeps none
  have hopen := g.unlimited_outset
  have hunlimited := invariant (fun _ _ => unlimited_step) hopen hs
  have hsize : s.game.players.size = g.players.size :=
    (size_of_reaches hs).trans (congrArg Array.size hplayers)
  have hlast : s.game.lastStanding = g.lastStanding := by
    rw [lastStanding, hsize, lastStanding]
  refine ⟨hunlimited.2, ?_, (rules_of_reaches hs).trans hrules, hlast⟩
  obtain ⟨-, htallied⟩ | ⟨hrefused, -⟩ :=
    tallied_of_reaches hopen.2 (outset_cases h none).1 hs
  · exact htallied
  · rw [hunlimited.2] at hrefused
    cases hrefused

/-- Once nobody is left, the match goes on exactly if too many threads are lost and
there are cycles left. -/
theorem isOver_eq_false_iff (h : g.TalliedBut lost) (hliving : g.living = 0) :
    g.isOver = false ↔ g.lastStanding < lost ∧ g.cycle < g.rules.maxCycles := by
  have halive := h.alive_eq
  rw [hliving, Nat.zero_add] at halive
  simp only [isOver, halive, g.reserve_eq_zero hliving, Nat.add_zero, Bool.or_eq_false_iff,
    decide_eq_false_iff_not, Nat.not_le]

/-- A call without a limit on its log fails to come to an end exactly if too many
threads are lost and the rest die before the cycles run out. -/
theorem not_halts_outset_iff (h : g.TalliedBut lost) :
    ¬(g.outset none).Halts ↔ g.lastStanding < lost ∧
      ∃ s, Reaches (g.outset none) ⟨s, .round⟩ ∧ s.game.living = 0 ∧
        s.game.cycle < g.rules.maxCycles := by
  have hnot : ¬(g.outset none).Halts ↔ ∃ s, Reaches (g.outset none) ⟨s, .round⟩ ∧
      s.log.refused = false ∧ s.game.isOver = false ∧ s.game.living = 0 := not_halts_iff
  rw [hnot]
  constructor
  · rintro ⟨s, hs, -, hrest, hliving⟩
    obtain ⟨-, htallied, hrules, hlast⟩ := keeps_of_reaches_outset h hs
    obtain ⟨hlost, hcycle⟩ := (isOver_eq_false_iff htallied hliving).mp hrest
    rw [hlast] at hlost
    rw [hrules] at hcycle
    exact ⟨hlost, s, hs, hliving, hcycle⟩
  · rintro ⟨hlost, s, hs, hliving, hcycle⟩
    obtain ⟨hopen, htallied, hrules, hlast⟩ := keeps_of_reaches_outset h hs
    rw [← hlast] at hlost
    rw [← hrules] at hcycle
    exact ⟨s, hs, hopen, (isOver_eq_false_iff htallied hliving).mpr ⟨hlost, hcycle⟩, hliving⟩

/-- After any calls the count of the living is that of the players with a thread,
and a call without a limit on its log comes to an end, exactly if no call was
interrupted. -/
theorem tallied_and_halts_iff {c : Configuration} {g₀ : Game} (hc : c.Accepted)
    (hg : c.Fresh g₀) (h : Leads g₀ lost g) :
    (g.alive = g.living ∧ (g.outset none).Halts ↔ lost = 0) ∧ g.alive = g.living + lost ∧
      ((g.play none).result = .error .endless ↔ g.lastStanding < lost ∧
        ∃ s, Reaches (g.outset none) ⟨s, .round⟩ ∧ s.game.living = 0 ∧
          s.game.cycle < g.rules.maxCycles) := by
  have htallied := talliedBut_of_leads (hg.talliedBut hc.wellFormed) h
  have halive := htallied.alive_eq
  refine ⟨⟨fun hright => by omega, fun hnone => ⟨by omega, ?_⟩⟩, halive, ?_⟩
  · by_cases hhalts : (g.outset none).Halts
    · exact hhalts
    · have hlost := ((not_halts_outset_iff htallied).mp hhalts).1
      omega
  · rw [← not_halts_outset_iff htallied, halts_outset_iff, Decidable.not_not]

end Game

/-! ## An interrupted duel -/

namespace Configuration

/-- A way to place the programs of the duel, one right behind the other. -/
def closePlacings : List (Placing duel) := [⟨duelFirst, 0⟩, ⟨duelSecond, 0⟩]

theorem drawable_closePlacings : Drawable closePlacings := ⟨by decide, by decide⟩

/-- The duel about to begin, in an arena that has been cleared: every instruction
is `nop`. -/
def clearedDuel : Game where
  rules := duel.rules
  arena := .empty
  players := #[duel.entered duelFirst 0, duel.entered duelSecond 2]
  starts := [0, 2]
  alive := 2

theorem fresh_clearedDuel : duel.Fresh clearedDuel :=
  (fresh_iff accepted_duel.wellFormed).mpr ⟨closePlacings, .empty, drawable_closePlacings, rfl⟩

/-- The log of the first call has room for one event: that the duel begins. -/
theorem leads_clearedDuel : clearedDuel.Leads 1 (clearedDuel.play (some 1)).game :=
  .interruption .start _ ⟨by decide +kernel, by decide +kernel⟩

theorem tallied_and_halts_iff_clearedDuel :
    duel.Accepted ∧ duel.Fresh clearedDuel ∧
      clearedDuel.Leads 1 (clearedDuel.play (some 1)).game ∧
      ((clearedDuel.play (some 1)).game.alive = (clearedDuel.play (some 1)).game.living ∧
        ((clearedDuel.play (some 1)).game.outset none).Halts ↔ 1 = 0) ∧
      (clearedDuel.play (some 1)).game.alive = (clearedDuel.play (some 1)).game.living + 1 := by
  obtain ⟨hright, hlost, -⟩ :=
    Game.tallied_and_halts_iff accepted_duel fresh_clearedDuel leads_clearedDuel
  exact ⟨accepted_duel, fresh_clearedDuel, leads_clearedDuel, hright, hlost⟩

/-- After one interrupted call two players count as alive, but only one has a
thread; after another, nobody has, and the match never ends. -/
theorem interrupted_duel_endless :
    duel.Accepted ∧ duel.Fresh clearedDuel ∧
      (clearedDuel.play (some 1)).Interrupted ∧
      (clearedDuel.play (some 1)).game.alive = 2 ∧
      (clearedDuel.play (some 1)).game.living = 1 ∧
      ((clearedDuel.play (some 1)).game.play (some 0)).Interrupted ∧
      ((clearedDuel.play (some 1)).game.play (some 0)).game.alive = 2 ∧
      ((clearedDuel.play (some 1)).game.play (some 0)).game.living = 0 ∧
      (((clearedDuel.play (some 1)).game.play (some 0)).game.play none).result
        = .error .endless ∧
      ¬(((clearedDuel.play (some 1)).game.play (some 0)).game.outset none).Halts := by
  have hendless : (((clearedDuel.play (some 1)).game.play (some 0)).game.play none).result
      = .error .endless := by decide +kernel
  refine ⟨accepted_duel, fresh_clearedDuel, ⟨by decide +kernel, by decide +kernel⟩,
    by decide +kernel, by decide +kernel, ⟨by decide +kernel, by decide +kernel⟩,
    by decide +kernel, by decide +kernel, hendless, ?_⟩
  rw [Game.halts_outset_iff]
  exact fun hreturns => hreturns hendless

end Configuration
end CoreWar
