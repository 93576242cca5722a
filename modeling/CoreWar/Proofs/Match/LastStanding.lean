import CoreWar.Proofs.Match.Timeline
import CoreWar.Proofs.Match.Turns

/-!
# The last one standing

In a match of several players a round begins only with two of them alive at least, and a
match in which no more than one is left when a round ends is over: who is left then stays
alive.

But a round is played to its end.  A player who has been left alone by the turns before
has its own turn all the same, and may die in it.  So nobody need survive: in a duel of two
programs that cannot be executed both die in the first round (`nobody_left_doomedDuel`).
What is true is that somebody survives unless the last round has killed all who began it.
-/

namespace CoreWar

namespace Game

open Demand Point

/-- The end of a match that is played with a log that takes every event, given the sessions
in which its rounds begin, the one in which they end, and the results. -/
structure Contested (g : Game) (ss : List Session) (s : Session) (r : Report) : Prop where
  rounds : Session.RoundsTo (g.outset none).session ss s
  final : IsFinal ⟨s, .round⟩
  game_eq : (g.play none).game = s.game.finish
  result_eq : (g.play none).result = .ok r
  survivors_eq : r.survivors = s.game.living
  /-- A round begins with two players at least, and each of them has its turn. -/
  contested : ∀ s' ∈ ss, 2 ≤ s'.game.living ∧ ∃ block, s'.RoundRobin block
  /-- A round that ends with one player left, or none, is the last. -/
  last : ∀ s', Reaches (g.outset none) ⟨s', .round⟩ → s'.game.living ≤ 1 → s' = s
  /-- Somebody survives unless the last round has left nobody. -/
  survives : 1 ≤ r.survivors ∨
    ∃ s', ss.getLast? = some s' ∧ 2 ≤ s'.game.living ∧ s = s'.round ∧ s.game.living = 0
  /-- Nobody is eliminated later. -/
  again : ∀ capacity, (g.play none).game.play capacity = ⟨(g.play none).game, [], .ok r⟩

variable {c : Configuration} {g : Game}

theorem survivors_report_finish (g : Game) : g.finish.report.survivors = g.living :=
  countP_isAlive_eq g.map_unscored_finish

/-- While no thread is lost, a match of several players is not over only if two of them are
alive. -/
theorem two_le_living (h : g.TalliedBut 0) (hlast : g.lastStanding = 1)
    (hover : g.isOver = false) : 2 ≤ g.living := by
  have halive := h.alive_eq
  simp only [isOver, hlast, Bool.or_eq_false_iff, decide_eq_false_iff_not] at hover
  omega

theorem contested_of_fresh (hc : c.Accepted) (hg : c.Fresh g)
    (hseveral : 1 < c.contestants.length) : ∃ ss s r, g.Contested ss s r := by
  have hwell := hc.wellFormed
  have htallied := hg.talliedBut hwell
  have hlast : g.lastStanding = 1 := by rw [lastStanding, hg.size_eq hwell, if_pos hseveral]
  obtain ⟨s, hs, hover, hcycle, hgame, hresult⟩ := exists_end hg hwell
  have hfinal : IsFinal ⟨s, .round⟩ := isFinal_round_iff.mpr (.inr hover)
  have hend : (g.outset none).session.rounds.1 = s := hfinal.rounds_eq hs
  obtain ⟨ss, hss⟩ := (g.outset none).session.exists_roundsTo
  rw [hend] at hss
  have hcontested : ∀ s' ∈ ss, 2 ≤ s'.game.living ∧ ∃ block, s'.RoundRobin block := by
    intro s' hs'
    obtain ⟨hreaches, hrest⟩ := hss.reaches hs'
    obtain ⟨-, hkept, -, hsame⟩ := keeps_of_reaches_outset htallied hreaches
    exact ⟨two_le_living hkept (hsame.trans hlast) hrest,
      (hg.orderly hwell).exists_roundRobin hreaches hrest⟩
  refine ⟨ss, s, s.game.finish.report, ?_⟩
  constructor
  · exact hss
  · exact hfinal
  · exact hgame
  · exact hresult
  · exact survivors_report_finish s.game
  · exact hcontested
  · intro s' hs' hfew
    obtain ⟨-, hkept, -, hsame⟩ := keeps_of_reaches_outset htallied hs'
    have hover' : s'.game.isOver = true := by
      by_contra hrest
      have htwo := two_le_living hkept (hsame.trans hlast) (eq_false_of_ne_true hrest)
      omega
    have hback := hfinal.reaches_of_reaches hs hs'
    have heq := (isFinal_round_iff.mpr (.inr hover')).eq_of_reaches hback
    exact congrArg Point.session heq.symm
  · rw [survivors_report_finish]
    by_cases hsome : 1 ≤ s.game.living
    · exact .inl hsome
    · refine .inr ?_
      rcases hss.eq_or_exists_last with ⟨-, hsame⟩ | ⟨s', hs', hround⟩
      · -- Before the first round all players are alive.
        have hall : s.game.living = c.contestants.length := by
          rw [hsame, living, (g.outset_keeps none).2]
          exact hg.living_eq hwell
        omega
      · have hmem := List.mem_of_getLast? hs'
        exact ⟨s', hs', (hcontested s' hmem).1, hround, by omega⟩
  · exact fun capacity => play_again hresult capacity

end Game

/-! ## A duel that nobody survives -/

namespace Configuration

/-- The members of a duel of two programs that are data. -/
def doomedDuelMembers : Members :=
  [("num_players", .number (.integer 2)), ("cycles_per_turn", .number (.integer 1)),
    ("max_cycles", .number (.integer 10)), ("score_for_killing_thread", .number (.integer 10)),
    ("score_for_killing_process", .number (.integer 100)),
    ("score_for_owning_ram", .number (.integer 0)),
    ("warriors", .array [.string "fAA=", .string "fAA="])]

/-- A duel of two programs that are data. -/
def doomedDuel : Configuration :=
  { duel with
    contestants := [⟨{ name := "Player 1" }, [0x7C, 0]⟩, ⟨{ name := "Player 2" }, [0x7C, 0]⟩] }

theorem accepted_doomedDuel : doomedDuel.Accepted := .inl ⟨.object doomedDuelMembers, rfl⟩

/-- A way to place the programs of the doomed duel, one right behind the other. -/
def doomedPlacings : List (Placing doomedDuel) := [⟨⟨0, by decide⟩, 0⟩, ⟨⟨1, by decide⟩, 0⟩]

/-- The doomed duel about to begin. -/
def doomedGame : Game :=
  doomedDuel.initial doomedPlacings
    ((Arena.empty.writeBytes 0 1 [0x7C, 0]).writeBytes 2 2 [0x7C, 0])

theorem fresh_doomedGame : doomedDuel.Fresh doomedGame :=
  (fresh_iff accepted_doomedDuel.wellFormed).mpr ⟨_, _, ⟨by decide, by decide⟩, rfl⟩

/-- The first player dies and leaves the second one alone, which dies in the same round. -/
theorem nobody_left_doomedDuel :
    doomedDuel.Accepted ∧ doomedDuel.Fresh doomedGame ∧ 1 < doomedDuel.contestants.length ∧
      (doomedGame.play none).events = [.init 0 [0, 2], .exec 1 1 0 none, .exec 2 2 2 none] ∧
      ∃ r, (doomedGame.play none).result = .ok r ∧ r.survivors = 0 := by
  obtain ⟨s, -, -, -, hgame, hresult⟩ := Game.exists_end fresh_doomedGame
    accepted_doomedDuel.wellFormed
  refine ⟨accepted_doomedDuel, fresh_doomedGame, by decide, by decide +kernel, _, hresult, ?_⟩
  rw [← hgame]
  decide +kernel

/-- In the trapped duel the second player is left when the first round ends. -/
theorem contested_trappedDuel :
    duel.Accepted ∧ duel.Fresh trappedDuel ∧ 1 < duel.contestants.length ∧
      (trappedDuel.play none).game.living = 1 ∧ ∃ ss s r, trappedDuel.Contested ss s r :=
  ⟨accepted_duel, fresh_clearedDuel.patch _, by decide, by decide +kernel,
    Game.contested_of_fresh accepted_duel (fresh_clearedDuel.patch _) (by decide)⟩

end Configuration
end CoreWar
