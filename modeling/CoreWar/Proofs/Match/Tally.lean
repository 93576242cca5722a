import CoreWar.Proofs.Match.Placement
import CoreWar.Proofs.Match.Rounds

/-!
# The count of the living

A match keeps count of the players alive, and the count takes part in deciding
when the match is over.  During a match no player has more than one thread: it
starts with one, and none is ever added.  So the count is that of the players
with a thread, but for the player whose thread is in hand, and but for the
players who lost a thread when a log refused an event (`tallied_step`).
-/

namespace CoreWar

namespace Game

/-- Something holds of the queue of every player. -/
def EveryQueue (g : Game) (P : List Thread → Prop) : Prop :=
  ∀ (i : Nat) (p : Player), g.players[i]? = some p → P p.queue

/-- No player has more than one thread. -/
def Sparse (g : Game) : Prop := g.EveryQueue fun queue => queue.length ≤ 1

variable {g : Game} {i : Nat} {p : Player} {t : Thread} {P : List Thread → Prop}

theorem EveryQueue.of_map_unscored_eq {g' : Game} (h : g.EveryQueue P)
    (hsame : g'.players.map Player.unscored = g.players.map Player.unscored) :
    g'.EveryQueue P := by
  intro i p hp
  obtain ⟨q, hq, hqp⟩ := exists_getElem?_of_map_eq hsame hp
  have hqueue := congrArg Player.queue hqp
  change q.queue = p.queue at hqueue
  rw [← hqueue]
  exact h i q hq

theorem EveryQueue.setIfInBounds {g' : Game} (h : g.EveryQueue P) (hp : P p.queue)
    (hset : g'.players = g.players.setIfInBounds i p) : g'.EveryQueue P := by
  intro j q hq
  rw [hset, Array.getElem?_setIfInBounds] at hq
  split at hq
  · split at hq
    · cases hq
      exact hp
    · cases hq
  · exact h j q hq

theorem EveryQueue.requeue (h : g.EveryQueue P)
    (hp : ∀ p, g.players[i]? = some p → P (p.queue ++ [t])) : (g.requeue i t).EveryQueue P := by
  intro j q hq
  change (g.players.modify i (·.requeue t))[j]? = some q at hq
  rw [Array.getElem?_modify] at hq
  split at hq
  next hij =>
    obtain ⟨p, hpj, rfl⟩ := Option.map_eq_some_iff.mp hq
    exact hp p (hij ▸ hpj)
  · exact h j q hq

/-- The player whose turn it is, and what is left of it. -/
theorem next?_eq_some_iff : g.next? i = some (t, p) ↔
    ∃ q, g.players[i]? = some q ∧ q.queue = t :: p.queue ∧ p = { q with queue := p.queue } := by
  unfold next? Player.next?
  cases g.players[i]? with
  | none => simp
  | some q =>
      rw [Option.bind_some]
      cases hqueue : q.queue with
      | nil => simp [hqueue]
      | cons u us =>
          simp only [Option.some.injEq, Prod.mk.injEq, exists_eq_left', hqueue, List.cons.injEq]
          constructor
          · rintro ⟨rfl, rfl⟩
            exact ⟨⟨rfl, rfl⟩, rfl⟩
          · rintro ⟨⟨rfl, rfl⟩, hp⟩
            exact ⟨rfl, hp.symm⟩

/-- The count of the living is right but for a number of lost threads. -/
structure TalliedBut (lost : Nat) (g : Game) : Prop where
  sparse : g.Sparse
  alive_eq : g.alive = g.living + lost

theorem TalliedBut.finish {lost : Nat} (h : g.TalliedBut lost) : g.finish.TalliedBut lost := by
  have hsame := g.map_unscored_finish
  have halive : g.finish.alive = g.alive := by
    unfold Game.finish
    dsimp only
    split <;> rfl
  refine ⟨EveryQueue.of_map_unscored_eq h.sparse hsame, ?_⟩
  rw [halive, h.alive_eq, living, living, countP_isAlive_eq hsame]

end Game

namespace Point

/-- The count of the living is right, but for the thread in hand and for a number
of lost threads. -/
def Tallied (lost : Nat) : Point → Prop
  | ⟨⟨g, _⟩, .hand i _ _ _⟩ =>
    g.Sparse ∧ (∃ p, g.players[i]? = some p ∧ p.queue = []) ∧ g.alive = g.living + lost + 1
  | ⟨⟨g, _⟩, _⟩ => g.TalliedBut lost

/-- The count stays right, except that a refused event loses a thread. -/
theorem tallied_step {lost : Nat} {p q : Point} (hp : Tallied lost p) (h : Step p q) :
    (q.session.log.refused = false ∧ Tallied lost q) ∨
      (q.session.log.refused = true ∧ q.stage = .round ∧ Tallied (lost + 1) q) := by
  cases h with
  | enter hlog => exact .inl ⟨hlog, hp⟩
  | leave hlog => exact .inl ⟨hlog, hp⟩
  | skip hlog => exact .inl ⟨hlog, hp⟩
  | @take s i t p hlog hi hnext =>
      obtain ⟨hsparse, halive⟩ := hp
      obtain ⟨q, hq, hqueue, -⟩ := Game.next?_eq_some_iff.mp hnext
      -- The thread taken was the only one, so its player has none in the queue now.
      have hone := hsparse i q hq
      rw [hqueue, List.length_cons] at hone
      have hnil : p.queue = [] := List.length_eq_zero_iff.mp (by omega)
      have hcount := Game.countP_setIfInBounds (p := Player.isAlive) p hq
      have hlives : q.isAlive = true := by simp [Player.isAlive, hqueue]
      have hdies : p.isAlive = false := by simp [Player.isAlive, hnil]
      rw [hlives, hdies] at hcount
      refine .inl ⟨hlog,
        Game.EveryQueue.setIfInBounds hsparse (i := i) (p := p) (by simp [hnil]) rfl,
        ⟨p, Array.getElem?_setIfInBounds_self_of_lt hi, hnil⟩, ?_⟩
      rw [Game.living] at halive
      change s.game.alive = (s.game.players.setIfInBounds i p).countP Player.isAlive + lost + 1
      rw [halive]
      simp only [Bool.toNat_true, Bool.toNat_false] at hcount
      omega
  | @spent s i pid t hlog =>
      obtain ⟨hsparse, ⟨p, hp, hnil⟩, halive⟩ := hp
      have hset := Game.modify_eq_setIfInBounds (·.requeue t) hp
      have hcount := Game.countP_setIfInBounds (p := Player.isAlive) (p.requeue t) hp
      have hdead : p.isAlive = false := by simp [Player.isAlive, hnil]
      rw [hdead, Player.isAlive_requeue] at hcount
      have hone : ∀ r, s.game.players[i]? = some r → (r.queue ++ [t]).length ≤ 1 := by
        intro r hr
        rw [hp] at hr
        cases hr
        simp [hnil]
      refine .inl ⟨hlog, Game.EveryQueue.requeue hsparse hone, ?_⟩
      rw [Game.living] at halive
      change s.game.alive = (s.game.players.modify i (·.requeue t)).countP Player.isAlive + lost
      rw [hset, halive]
      simp only [Bool.toNat_true, Bool.toNat_false] at hcount
      omega
  | @refuse s i pid t budget hlog hbudget hpush =>
      obtain ⟨hsparse, hhand, halive⟩ := hp
      refine .inr ⟨hpush, rfl, ?_, ?_⟩
      · exact Game.EveryQueue.of_map_unscored_eq hsparse (by rw [Game.players_charge])
      · rw [Game.alive_charge, halive, Game.living, Game.living, Game.players_charge]
        omega
  | @die s i pid t budget hlog hbudget hpush hfault =>
      obtain ⟨hsparse, ⟨p, hp, hnil⟩, halive⟩ := hp
      have hsame := (s.game.charge pid t budget).game.map_unscored_kill pid
        (s.game.charge pid t budget).thread i
      rw [Game.players_charge] at hsame
      refine .inl ⟨hpush, Game.EveryQueue.of_map_unscored_eq hsparse hsame, ?_⟩
      -- The queue is empty, so the dead thread was the last of its player.
      have hlast : (s.game.charge pid t budget).game.players[i]?.any Player.isAlive = false := by
        rw [Game.players_charge, hp]
        simp [Player.isAlive, hnil]
      have hkill : ((s.game.charge pid t budget).game.kill i pid
          (s.game.charge pid t budget).thread).alive = s.game.alive - 1 := by
        rw [← s.game.alive_charge pid t budget]
        simp only [Game.kill, hlast, Bool.not_false, if_true]
      have hliving := Game.countP_isAlive_eq hsame
      rw [hkill, Game.living, hliving, halive, ← Game.living]
      omega
  | @pay s i pid t budget hlog hbudget hpush hfault =>
      obtain ⟨hsparse, hhand, halive⟩ := hp
      refine .inl ⟨hpush, ?_, ?_, ?_⟩
      · exact Game.EveryQueue.of_map_unscored_eq hsparse (by rw [Game.players_charge])
      · rw [Game.players_charge]
        exact hhand
      · rw [Game.alive_charge, halive, Game.living, Game.living, Game.players_charge]

theorem exists_tallied_step {p q : Point} (hp : ∃ lost, Tallied lost p) (h : Step p q) :
    ∃ lost, Tallied lost q := by
  obtain ⟨lost, htallied⟩ := hp
  rcases tallied_step htallied h with ⟨-, hq⟩ | ⟨-, -, hq⟩
  · exact ⟨lost, hq⟩
  · exact ⟨lost + 1, hq⟩

/-- All along a match the count is right, until a refused event ends it. -/
theorem tallied_of_reaches {lost : Nat} {p q : Point} (hlog : p.session.log.refused = false)
    (hp : Tallied lost p) (h : Reaches p q) :
    (q.session.log.refused = false ∧ Tallied lost q) ∨
      (q.session.log.refused = true ∧ q.stage = .round ∧ Tallied (lost + 1) q) := by
  refine invariant (P := fun q => (q.session.log.refused = false ∧ Tallied lost q) ∨
    (q.session.log.refused = true ∧ q.stage = .round ∧ Tallied (lost + 1) q))
    ?_ (.inl ⟨hlog, hp⟩) h
  rintro p q (⟨-, hp⟩ | ⟨hrefused, hstage, -⟩) hstep
  · exact tallied_step hp hstep
  · obtain ⟨s, stage⟩ := p
    subst hstage
    exact absurd hstep (isFinal_round_iff.mpr (.inl hrefused) q)

end Point

/-! ## Before the first call -/

namespace Configuration

variable {c : Configuration} {g : Game}

/-- Before a match begins, every player has one thread. -/
theorem Fresh.sparse (hg : c.Fresh g) (hc : c.WellFormed) : g.Sparse := by
  obtain ⟨-, -, -, start, hplayers⟩ := hg.spec hc
  intro i p hp
  have hmem : p ∈ g.players.toList := Array.mem_toList_iff.mpr (Array.mem_of_getElem? hp)
  rw [hplayers] at hmem
  obtain ⟨k, -, rfl⟩ := List.mem_map.mp hmem
  exact Nat.le_refl _

theorem Fresh.living_eq (hg : c.Fresh g) (hc : c.WellFormed) :
    g.living = c.contestants.length := by
  obtain ⟨-, -, -, start, hplayers⟩ := hg.spec hc
  rw [Game.living, ← Array.countP_toList, hplayers, List.countP_map]
  have hall : (List.finRange c.contestants.length).countP
      (Player.isAlive ∘ fun i => c.entered i (start i)) =
        (List.finRange c.contestants.length).length := List.countP_eq_length.mpr fun _ _ => rfl
  rw [hall, List.length_finRange]

theorem Fresh.talliedBut (hg : c.Fresh g) (hc : c.WellFormed) : g.TalliedBut 0 := by
  refine ⟨hg.sparse hc, ?_⟩
  rw [hg.living_eq hc, (hg.spec hc).2.2.1, Nat.add_zero]

end Configuration
end CoreWar
