import CoreWar.Proofs.Match.Demands
import CoreWar.Proofs.Match.Settlement
import Mathlib.Data.List.DropRight

/-!
# Threads pay what their instructions cost

A budget need not pay for an instruction at once: what it cannot pay remains as a debt
of the thread, and the instruction is executed when the last of it is paid.  Until then
the thread stays as it is.  Other threads may meanwhile overwrite the cell that it stands
at, but what it pays in all is the cost of the operation that was there when it was first
charged.

No player has more than one thread, so the demands on a thread are those on its player.
Those that no budget has met since the last one that was are `Demand.pending`, and
`Demand.Outstanding` is what carries the proof from one demand to the next: the payments
so far and the debt sum up to the cost.  Debts outlast a call that plays the match, so
this is shown of all demands that were ever made, in a `Game.History` of calls.
-/

namespace CoreWar

namespace Demand

/-! ## Pending demands -/

/-- The demands on the thread of a player since the last one that was met. -/
def pending (i : Nat) (ds : List Demand) : List Demand :=
  (ds.filter fun d => d.index = i).rtakeWhile fun d => !d.isMet

variable {i : Nat} {ds : List Demand} {d : Demand}

theorem pending_append_of_ne (h : d.index ≠ i) : pending i (ds ++ [d]) = pending i ds := by
  simp [pending, h]

theorem pending_append_of_isMet (hi : d.index = i) (h : d.isMet = true) :
    pending i (ds ++ [d]) = [] := by
  simp [pending, hi, h]

theorem pending_append_of_not_isMet (hi : d.index = i) (h : d.isMet = false) :
    pending i (ds ++ [d]) = pending i ds ++ [d] := by
  simp [pending, hi, h]

theorem not_isMet_of_mem_pending (h : d ∈ pending i ds) : d.isMet = false := by
  simpa using List.mem_rtakeWhile_imp h

/-- What a thread still owes after the payments to pending demands. -/
structure Outstanding (due : List Demand) (t : Thread) : Prop where
  cost_eq : ∀ first ∈ due.head?, (due.map paid).sum + t.debt = first.cost
  debt_eq_zero_iff : t.debt = 0 ↔ due = []
  /-- Nothing but the debt has changed. -/
  same : ∀ d ∈ due, { d.thread with debt := 0 } = { t with debt := 0 }

theorem outstanding_nil {t : Thread} (h : t.debt = 0) : Outstanding [] t :=
  ⟨by simp, by simp [h], by simp⟩

/-- What is owed now and what has been paid is the cost of the first demand. -/
theorem Outstanding.sum_add_owed {due : List Demand} (h : Outstanding due d.thread) :
    ∀ first ∈ (due ++ [d]).head?, (due.map paid).sum + d.owed = first.cost := by
  intro first hfirst
  cases due with
  | nil =>
      obtain rfl : d = first := by simpa using hfirst
      have hdebt : d.thread.debt = 0 := h.debt_eq_zero_iff.mpr rfl
      rw [owed_eq_cost hdebt, List.map_nil, List.sum_nil, Nat.zero_add]
  | cons e due =>
      have hdebt : d.thread.debt ≠ 0 := fun hzero =>
        List.cons_ne_nil e due (h.debt_eq_zero_iff.mp hzero)
      rw [owed_eq_debt hdebt]
      exact h.cost_eq first hfirst

/-- A demand that is not met becomes pending. -/
theorem Outstanding.defer {due : List Demand} (h : Outstanding due d.thread)
    (hd : d.isMet = false) : Outstanding (due ++ [d]) d.charge.thread := by
  have hlt : d.budget < d.owed := Nat.lt_of_not_le (of_decide_eq_false hd)
  have hcharge := charge_of_not_isMet hd
  rw [hcharge]
  constructor
  · intro first hfirst
    have hsum := h.sum_add_owed first hfirst
    rw [List.map_append, List.sum_append, List.map_singleton, List.sum_singleton,
      paid_of_not_isMet hd]
    dsimp only
    omega
  · have hne : d.owed - d.budget ≠ 0 := by omega
    simp [hne]
  · intro e he
    rcases List.mem_append.mp he with he | he
    · exact h.same e he
    · rw [List.mem_singleton.mp he]

/-- The law of a demand that comes behind others. -/
structure Conserved (done : List Demand) (d : Demand) : Prop where
  /-- When the instruction is executed, the cycles charged for it are the cost of the
  operation that was there at the first of the charges. -/
  sum_eq : d.isMet = true → ∀ first ∈ (pending d.index done ++ [d]).head?,
    ((pending d.index done ++ [d]).map paid).sum = first.cost
  /-- The charges before were deferrals of the same instruction by the same thread. -/
  same : ∀ e ∈ pending d.index done,
    { e.thread with debt := 0 } = { d.thread with debt := 0 } ∧
      e.event = .exec e.game.cycle e.pid d.thread.ip none
  debt_of_isMet : d.isMet = true → d.charge.thread.debt = 0
  debt_of_not_isMet : d.isMet = false → 1 ≤ d.charge.thread.debt

theorem Outstanding.conserved {done : List Demand}
    (h : Outstanding (pending d.index done) d.thread) : Conserved done d := by
  constructor
  · intro hd first hfirst
    have hsum := h.sum_add_owed first hfirst
    rw [List.map_append, List.sum_append, List.map_singleton, List.sum_singleton,
      paid_of_isMet hd]
    exact hsum
  · intro e he
    have hsame := h.same e he
    have hip := congrArg Thread.ip hsame
    change e.thread.ip = d.thread.ip at hip
    refine ⟨hsame, ?_⟩
    rw [event, succeeds, not_isMet_of_mem_pending he, hip]
    rfl
  · exact debt_charge_of_isMet
  · intro hd
    have hnil := (h.defer hd).debt_eq_zero_iff
    simp only [List.append_eq_nil_iff, List.cons_ne_nil, and_false, iff_false] at hnil
    exact Nat.pos_of_ne_zero hnil

end Demand

/-! ## Threads on a run -/

namespace Point

open Demand

/-- A player has a thread, in its queue or in hand. -/
def Holds (p : Point) (i : Nat) (t : Thread) : Prop :=
  (∃ x, p.session.game.players[i]? = some x ∧ t ∈ x.queue) ∨
    ∃ pid budget, p.stage = .hand i pid t budget

/-- All threads owe what is left of the demands made so far, and these were lawful. -/
structure Owing (done : List Demand) (p : Point) : Prop where
  outstanding : ∀ i t, p.Holds i t → Outstanding (pending i done) t
  conserved : ∀ before d after, done = before ++ d :: after → Conserved before d

variable {p q : Point} {done ds : List Demand} {lost : Nat}

/-- Where no demand is made, threads change places only. -/
theorem holds_of_demand?_eq_none (h : Step p q) (hnone : p.demand? = none) {j : Nat} {u : Thread}
    (hq : q.Holds j u) : p.Holds j u := by
  cases h with
  | enter =>
      rcases hq with hqueue | ⟨pid, budget, hstage⟩
      · exact .inl hqueue
      · cases hstage
  | leave =>
      rcases hq with hqueue | ⟨pid, budget, hstage⟩
      · exact .inl hqueue
      · cases hstage
  | skip =>
      rcases hq with hqueue | ⟨pid, budget, hstage⟩
      · exact .inl hqueue
      · cases hstage
  | @take s i t p hlog hi hnext =>
      obtain ⟨x, hx, hqueue, -⟩ := Game.next?_eq_some_iff.mp hnext
      refine .inl ?_
      rcases hq with ⟨y, hy, hu⟩ | ⟨pid, budget, hstage⟩
      · have hset : (s.game.players.setIfInBounds i p)[j]? = some y := hy
        by_cases hij : i = j
        · subst hij
          rw [Array.getElem?_setIfInBounds_self_of_lt hi] at hset
          cases hset
          exact ⟨x, hx, hqueue ▸ List.mem_cons_of_mem t hu⟩
        · rw [Array.getElem?_setIfInBounds_ne hij] at hset
          exact ⟨y, hset, hu⟩
      · cases hstage
        exact ⟨x, hx, hqueue ▸ List.mem_cons_self⟩
  | @spent s i pid t hlog =>
      rcases hq with ⟨y, hy, hu⟩ | ⟨pid', budget, hstage⟩
      · have hmodify : (s.game.players.modify i (·.requeue t))[j]? = some y := hy
        rw [Array.getElem?_modify] at hmodify
        by_cases hij : i = j
        · subst hij
          rw [if_pos rfl] at hmodify
          obtain ⟨x, hx, rfl⟩ := Option.map_eq_some_iff.mp hmodify
          rcases List.mem_append.mp hu with hu | hu
          · exact .inl ⟨x, hx, hu⟩
          · rw [List.mem_singleton.mp hu]
            exact .inr ⟨pid, 0, rfl⟩
        · rw [if_neg hij] at hmodify
          exact .inl ⟨y, hmodify, hu⟩
      · cases hstage
  | refuse _ hbudget => rw [demand?_hand hbudget] at hnone; cases hnone
  | die _ hbudget => rw [demand?_hand hbudget] at hnone; cases hnone
  | pay _ hbudget => rw [demand?_hand hbudget] at hnone; cases hnone

/-- A thread after a demand is the one that faced it, or waits in the queue of
another player. -/
theorem holds_of_demand? (hp : Tallied lost p) (h : Step p q) {d : Demand}
    (hd : p.demand? = some d) {j : Nat} {u : Thread} (hq : q.Holds j u) :
    (j = d.index ∧ u = d.charge.thread) ∨ (j ≠ d.index ∧ p.Holds j u) := by
  have hstage := stage_of_demand? hd
  -- The player whose thread is in hand has no other.
  have hqueued : ∀ {x}, p.session.game.players[j]? = some x → u ∈ x.queue →
      j ≠ d.index ∧ p.Holds j u := by
    intro x hx hu
    refine ⟨?_, .inl ⟨x, hx, hu⟩⟩
    rintro rfl
    obtain ⟨⟨g, log⟩, stage⟩ := p
    subst hstage
    obtain ⟨-, ⟨y, hy, hnil⟩, -⟩ := hp
    have hx : g.players[d.index]? = some x := hx
    rw [hy] at hx
    cases hx
    rw [hnil] at hu
    cases hu
  -- Credits do not touch the queues.
  have hsame : q.session.game.players.map Player.unscored
      = p.session.game.players.map Player.unscored := by
    cases h with
    | enter => cases hd
    | leave => cases hd
    | skip => cases hd
    | take => cases hd
    | spent => cases hd
    | refuse => exact congrArg (Array.map Player.unscored) (Game.players_charge _ _ _ _)
    | @die s i pid t budget =>
        have hkill := (s.game.charge pid t budget).game.map_unscored_kill pid
          (s.game.charge pid t budget).thread i
        rwa [Game.players_charge] at hkill
    | pay => exact congrArg (Array.map Player.unscored) (Game.players_charge _ _ _ _)
  rcases hq with ⟨y, hy, hu⟩ | ⟨pid, budget, hhand⟩
  · obtain ⟨x, hx, hxy⟩ := Game.exists_getElem?_of_map_eq hsame hy
    have hqueue := congrArg Player.queue hxy
    change x.queue = y.queue at hqueue
    exact .inr (hqueued hx (hqueue ▸ hu))
  · cases h with
    | enter => cases hd
    | leave => cases hd
    | skip => cases hd
    | take => cases hd
    | spent => cases hd
    | refuse => cases hhand
    | die => cases hhand
    | pay _ hbudget =>
        rw [demand?_hand hbudget] at hd
        cases hd
        cases hhand
        exact .inl ⟨rfl, rfl⟩

/-- One more lawful demand. -/
theorem conserved_append {d : Demand}
    (h : ∀ before e after, done = before ++ e :: after → Conserved before e)
    (hd : Conserved done d) :
    ∀ before e after, done ++ [d] = before ++ e :: after → Conserved before e := by
  intro before e after heq
  rcases List.eq_nil_or_concat after with rfl | ⟨rest, x, rfl⟩
  · obtain ⟨rfl, hx⟩ := List.append_inj' heq rfl
    cases hx
    exact hd
  · rw [List.concat_eq_append, ← List.cons_append, ← List.append_assoc] at heq
    obtain ⟨hdone, -⟩ := List.append_inj' heq rfl
    exact h before e rest hdone

theorem owing_step (hp : Owing done p) (htallied : Tallied lost p) (h : Step p q) :
    Owing (done ++ p.demand?.toList) q := by
  cases hd : p.demand? with
  | none =>
      rw [Option.toList_none, List.append_nil]
      exact ⟨fun j u hu => hp.outstanding j u (holds_of_demand?_eq_none h hd hu), hp.conserved⟩
  | some d =>
      have hfaced := hp.outstanding d.index d.thread
        (.inr ⟨d.pid, d.budget, stage_of_demand? hd⟩)
      refine ⟨?_, conserved_append hp.conserved hfaced.conserved⟩
      intro j u hu
      rw [Option.toList_some]
      rcases holds_of_demand? htallied h hd hu with ⟨rfl, rfl⟩ | ⟨hne, hold⟩
      · cases hmet : d.isMet with
        | true =>
            rw [pending_append_of_isMet rfl hmet]
            exact outstanding_nil (debt_charge_of_isMet hmet)
        | false =>
            rw [pending_append_of_not_isMet rfl hmet]
            exact hfaced.defer hmet
      · rw [pending_append_of_ne hne.symm]
        exact hp.outstanding j u hold

/-- All along a run threads owe what is left of the demands on them. -/
theorem owing_of_pays (hp : Owing done p) (htallied : ∃ lost, Tallied lost p)
    (h : Pays p ds q) : Owing (done ++ ds) q ∧ ∃ lost, Tallied lost q := by
  induction h generalizing done with
  | refl =>
      rw [List.append_nil]
      exact ⟨hp, htallied⟩
  | head hstep _ ih =>
      obtain ⟨lost, hfaced⟩ := htallied
      rw [← List.append_assoc]
      exact ih (owing_step hp hfaced hstep) (exists_tallied_step ⟨lost, hfaced⟩ hstep)

/-- Between rounds all threads wait in queues, so nothing else matters. -/
theorem Owing.of_map_unscored_eq {s s' : Session} (h : Owing done ⟨s, .round⟩)
    (hsame : s'.game.players.map Player.unscored = s.game.players.map Player.unscored) :
    Owing done ⟨s', .round⟩ := by
  refine ⟨?_, h.conserved⟩
  rintro j u (⟨y, hy, hu⟩ | ⟨pid, budget, hstage⟩)
  · obtain ⟨x, hx, hxy⟩ := Game.exists_getElem?_of_map_eq hsame hy
    have hqueue := congrArg Player.queue hxy
    change x.queue = y.queue at hqueue
    exact h.outstanding j u (.inl ⟨x, hx, hqueue ▸ hu⟩)
  · cases hstage

end Point

/-! ## Threads on any number of calls -/

namespace Game

open Demand Point

/-- The demands made in the calls that lead from a game to another.  Each call has a log
of its own, and the arena may be patched between calls. -/
inductive History (g₀ : Game) : List Demand → Game → Prop
  | start : History g₀ [] g₀
  | patch {ds : List Demand} {g : Game} (h : History g₀ ds g) (m : Arena) :
      History g₀ ds { g with arena := m }
  | call {ds ds' : List Demand} {g : Game} {s : Session} (h : History g₀ ds g)
      (capacity : Option Nat) (hpays : Pays (g.outset capacity) ds' ⟨s, .round⟩)
      (hfinal : IsFinal ⟨s, .round⟩) : History g₀ (ds ++ ds') (g.play capacity).game

variable {g₀ g : Game} {ds : List Demand} {lost : Nat} {capacity : Option Nat}

/-- A call that comes to an end leaves the players as they are where it ends, but for
their results. -/
theorem map_unscored_play {s : Session} (hs : Reaches (g.outset capacity) ⟨s, .round⟩)
    (hfinal : IsFinal ⟨s, .round⟩) : (g.play capacity).game.players.map Player.unscored
      = s.game.players.map Player.unscored := by
  rw [play_of_isFinal hs hfinal]
  split
  · rfl
  · exact map_unscored_finish _

theorem rules_play (g : Game) (capacity : Option Nat) :
    (g.play capacity).game.rules = g.rules := by
  obtain ⟨s, hs, -, hplay⟩ := g.play_cases capacity
  have hrules : s.game.rules = g.rules :=
    (rules_of_reaches hs).trans (g.outset_keeps capacity).1
  rcases hplay with ⟨-, hplay⟩ | ⟨-, -, hplay⟩ | ⟨-, -, -, hplay⟩
  · rw [hplay, hrules]
  · rw [hplay, s.game.finish_keeps.1, hrules]
  · rw [hplay, hrules]

/-- A call that does not turn out to be endless comes to an end. -/
theorem exists_isFinal_of_play (h : (g.play capacity).result ≠ .error .endless) :
    ∃ s, Reaches (g.outset capacity) ⟨s, .round⟩ ∧ IsFinal ⟨s, .round⟩ := by
  obtain ⟨s, hs, -, hplay⟩ := g.play_cases capacity
  rcases hplay with ⟨hrefused, -⟩ | ⟨-, hover, -⟩ | ⟨-, -, -, hplay⟩
  · exact ⟨s, hs, isFinal_round_iff.mpr (.inl hrefused)⟩
  · exact ⟨s, hs, isFinal_round_iff.mpr (.inr hover)⟩
  · exact absurd (by rw [hplay]) h

/-- Whatever calls lead to has a history. -/
theorem exists_history_of_leads (h : g₀.Leads lost g) : ∃ ds, g₀.History ds g := by
  have hcall : ∀ {g : Game} {ds : List Demand} (capacity : Option Nat), g₀.History ds g →
      (g.play capacity).result ≠ .error .endless →
      ∃ ds', g₀.History ds' (g.play capacity).game := by
    intro g ds capacity h hreturns
    obtain ⟨s, hs, hfinal⟩ := exists_isFinal_of_play hreturns
    obtain ⟨ds', hpays⟩ := exists_pays_of_reaches hs
    exact ⟨ds ++ ds', .call h capacity hpays hfinal⟩
  induction h with
  | start => exact ⟨[], .start⟩
  | patch h m ih =>
      obtain ⟨ds, ih⟩ := ih
      exact ⟨ds, .patch ih m⟩
  | call h capacity hreturns hwhole ih =>
      obtain ⟨ds, ih⟩ := ih
      exact hcall capacity ih hreturns
  | interruption h capacity hpartial ih =>
      obtain ⟨ds, ih⟩ := ih
      refine hcall capacity ih fun hendless => ?_
      rw [hpartial.1] at hendless
      cases hendless

/-- What holds between calls, with the demands made so far. -/
structure Orderly (rules : Rules) (ds : List Demand) (g : Game) : Prop where
  rules_eq : g.rules = rules
  tallied : ∃ lost, g.TalliedBut lost
  numbered : g.Numbered
  demands : ∀ d ∈ ds, d.game.rules = rules ∧ d.pid.toNat = d.index + 1
  owing : ∀ log, Owing ds ⟨⟨g, log⟩, .round⟩

/-- What holds wherever a call leads, with the demands made in earlier calls and in this
one. -/
structure Conserving (rules : Rules) (g : Game) (capacity : Option Nat) (ds ds' : List Demand)
    (p : Point) : Prop where
  /-- No player has more than one thread, so the demands on a player are those on its
  thread. -/
  sparse : p.session.game.Sparse
  demands : ∀ d ∈ ds ++ ds', d.game.rules = rules ∧ d.pid.toNat = d.index + 1
  /-- All demands are lawful, and every thread owes what is left of those on it. -/
  owing : Owing (ds ++ ds') p
  /-- What is charged is what the count of cycles goes up by. -/
  tiles : Tiles (g.outset capacity).session.game.cycle ds' p.session.game.cycle
  events_eq : capacity = none → p.session.log.events.toList =
    (g.outset none).session.log.events.toList ++ ds'.map Demand.event

variable {rules : Rules} {ds' : List Demand}

theorem sparse_of_tallied {p : Point} (h : Tallied lost p) : p.session.game.Sparse := by
  obtain ⟨⟨g, log⟩, stage⟩ := p
  cases stage with
  | round => exact h.sparse
  | turn i => exact h.sparse
  | hand i pid t budget => exact h.1

theorem Orderly.numbered_outset (h : g.Orderly rules ds) (capacity : Option Nat) :
    (g.outset capacity).Numbered := by
  obtain ⟨-, hplayers⟩ := g.outset_keeps capacity
  exact ⟨h.numbered.of_map_pid_eq (congrArg (Array.map Player.pid) hplayers), by simp [outset]⟩

theorem Orderly.conserving (h : g.Orderly rules ds) {p : Point}
    (hp : Pays (g.outset capacity) ds' p) : g.Conserving rules capacity ds ds' p := by
  obtain ⟨lost, htallied⟩ := h.tallied
  obtain ⟨hrules, hplayers⟩ := g.outset_keeps capacity
  have howing : Owing ds (g.outset capacity) :=
    (h.owing {}).of_map_unscored_eq (congrArg (Array.map Player.unscored) hplayers)
  obtain ⟨howing, last, htallied⟩ :=
    owing_of_pays howing ⟨lost, (outset_cases htallied capacity).1⟩ hp
  obtain ⟨-, hnumbered⟩ := numbered_of_pays (h.numbered_outset capacity) hp
  refine ⟨sparse_of_tallied htallied, fun d hd => ?_, howing, tiles_of_pays hp, ?_⟩
  · rcases List.mem_append.mp hd with hd | hd
    · exact h.demands d hd
    · exact ⟨(rules_of_pays hp d hd).trans (hrules.trans h.rules_eq), hnumbered d hd⟩
  · rintro rfl
    exact events_of_pays g.unlimited_outset hp

/-- A call that comes to an end leaves everything in order. -/
theorem Orderly.play (h : g.Orderly rules ds) {s : Session}
    (hp : Pays (g.outset capacity) ds' ⟨s, .round⟩) (hfinal : IsFinal ⟨s, .round⟩) :
    (g.play capacity).game.Orderly rules (ds ++ ds') := by
  have hconserving := h.conserving hp
  have hnumbered := (numbered_of_pays (h.numbered_outset capacity) hp).1
  have hreaches := reaches_of_pays hp
  have hsame := map_unscored_play hreaches hfinal
  refine ⟨?_, ?_, ?_, hconserving.demands, fun log => hconserving.owing.of_map_unscored_eq hsame⟩
  · rw [rules_play]
    exact h.rules_eq
  · obtain ⟨lost, htallied⟩ := h.tallied
    rcases talliedBut_play htallied capacity with ⟨-, hplay⟩ | ⟨-, hplay⟩
    · exact ⟨lost, hplay⟩
    · exact ⟨lost + 1, hplay⟩
  · exact hnumbered.game.of_map_pid_eq (map_pid_of_map_unscored_eq hsame)

theorem orderly_of_history (h₀ : g₀.Orderly rules []) (h : g₀.History ds g) :
    g.Orderly rules ds := by
  induction h with
  | start => exact h₀
  | patch h m ih =>
      obtain ⟨hrules, ⟨lost, hsparse, halive⟩, hnumbered, hdemands, howing⟩ := ih
      exact ⟨hrules, ⟨lost, hsparse, halive⟩, hnumbered, hdemands,
        fun log => (howing log).of_map_unscored_eq rfl⟩
  | call h capacity hpays hfinal ih => exact ih.play hpays hfinal

end Game

namespace Configuration

open Demand Point

variable {c : Configuration} {g : Game}

/-- Before a match begins, nobody owes anything. -/
theorem Fresh.orderly (hg : c.Fresh g) (hc : c.WellFormed) : g.Orderly c.rules [] := by
  obtain ⟨hrules, -, -, start, hplayers⟩ := hg.spec hc
  refine ⟨hrules, ⟨0, hg.talliedBut hc⟩, fun i x hx => (hg.recorded hc i x hx).1, by simp, ?_⟩
  refine fun log => ⟨?_, by simp⟩
  rintro i t (⟨x, hx, ht⟩ | ⟨pid, budget, hstage⟩)
  · have hmem : x ∈ g.players.toList := Array.mem_toList_iff.mpr (Array.mem_of_getElem? hx)
    rw [hplayers] at hmem
    obtain ⟨k, -, rfl⟩ := List.mem_map.mp hmem
    obtain rfl : t = { ip := UInt16.ofNat (start k) } := List.mem_singleton.mp ht
    exact outstanding_nil rfl
  · cases hstage

end Configuration

namespace Game

open Demand Point

/-- Whatever calls have played before, and wherever the next one leads: for every
instruction that is executed, what was charged since the one before is the cost of the
operation that was there at the first of the charges. -/
theorem conserving_of_fresh {c : Configuration} {g₀ g : Game} {lost : Nat} (hc : c.Accepted)
    (hg : c.Fresh g₀) (h : g₀.Leads lost g) :
    (∃ ds, g₀.History ds g) ∧
      ∀ ds, g₀.History ds g → ∀ capacity p, Reaches (g.outset capacity) p →
        (∃ ds', Pays (g.outset capacity) ds' p) ∧
          ∀ ds', Pays (g.outset capacity) ds' p → g.Conserving c.rules capacity ds ds' p := by
  refine ⟨exists_history_of_leads h, fun ds hds capacity p hp => ?_⟩
  have horderly := orderly_of_history (hg.orderly hc.wellFormed) hds
  exact ⟨exists_pays_of_reaches hp, fun ds' hpays => horderly.conserving hpays⟩

end Game

/-! ## A dear duel -/

namespace Configuration

/-- The members of a duel in which a turn has two cycles and a `nop` costs three. -/
def dearDuelMembers : Members :=
  [("num_players", .number (.integer 2)), ("cycles_per_turn", .number (.integer 2)),
    ("max_cycles", .number (.integer 10)), ("score_for_killing_thread", .number (.integer 10)),
    ("score_for_killing_process", .number (.integer 100)),
    ("score_for_owning_ram", .number (.integer 0)),
    ("cycles", .object [("nop", .number (.integer 3))]),
    ("warriors", .array [.string "AAA=", .string "AAAAAA=="])]

/-- A duel in which a turn has two cycles and a `nop` costs three. -/
def dearDuel : Configuration :=
  { duel with
    rules := { duel.rules with
      cyclesPerTurn := 2
      costs := CostTable.ones.set .nop ⟨3, by decide⟩ } }

theorem accepted_dearDuel : dearDuel.Accepted := .inl ⟨.object dearDuelMembers, rfl⟩

/-- A way to place the programs of the dear duel, one right behind the other. -/
def dearPlacings : List (Placing dearDuel) := [⟨⟨0, by decide⟩, 0⟩, ⟨⟨1, by decide⟩, 0⟩]

theorem fresh_dearDuel : dearDuel.Fresh (dearDuel.initial dearPlacings .empty) :=
  (fresh_iff accepted_dearDuel.wellFormed).mpr ⟨_, _, ⟨by decide, by decide⟩, rfl⟩

/-- Each instruction takes two turns: the first one only pays two of its three cycles. -/
theorem conserving_dearDuel :
    dearDuel.Accepted ∧ dearDuel.Fresh (dearDuel.initial dearPlacings .empty) ∧
      (dearDuel.initial dearPlacings .empty).Leads 0 (dearDuel.initial dearPlacings .empty) ∧
      ((dearDuel.initial dearPlacings .empty).play none).events =
        [.init 0 [0, 2], .exec 1 1 0 none, .exec 3 2 2 none, .exec 5 1 0 (some 6),
          .exec 6 1 2 none, .exec 7 2 2 (some 8), .exec 8 2 4 none] ∧
      ∀ p, Point.Reaches ((dearDuel.initial dearPlacings .empty).outset none) p →
        ∃ ds, Point.Pays ((dearDuel.initial dearPlacings .empty).outset none) ds p ∧
          (dearDuel.initial dearPlacings .empty).Conserving dearDuel.rules none [] ds p := by
  refine ⟨accepted_dearDuel, fresh_dearDuel, .start, by decide +kernel, fun p hp => ?_⟩
  obtain ⟨-, hall⟩ := Game.conserving_of_fresh accepted_dearDuel fresh_dearDuel .start
  obtain ⟨⟨ds, hds⟩, hconserving⟩ := hall [] .start none p hp
  exact ⟨ds, hds, hconserving ds hds⟩

end Configuration
end CoreWar
