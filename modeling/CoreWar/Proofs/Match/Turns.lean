import CoreWar.Proofs.Match.Conservation

/-!
# Turns and rounds

In a round every player with a thread has one turn, in the order of the players, and the
log tells of the demands of one turn after the other.  A thread that lives to the end of
its turn has spent the whole budget, and only its last instruction may have been deferred;
a thread that dies has spent a part of it, and its last instruction is the one that failed.

`Demand.Spends` follows the recursion of a turn, and `Demand.Turn` is what comes of it.
What one turn leaves alone (`Session.unscored?_turn`) then lets the turns of a round be put
side by side: each finds its player as the round has found it, and leaves it as the round
leaves it.
-/

namespace CoreWar

/-! ## Budgets -/

namespace Demand

/-- How a thread spends a budget: it is charged until nothing is left or until it dies. -/
inductive Spends : Nat → Bool → List Demand → Prop
  | spent : Spends 0 true []
  | die {d : Demand} (hbudget : d.budget ≠ 0) (hd : d.dies = true) : Spends d.budget false [d]
  | pay {d : Demand} {lives : Bool} {ds : List Demand} (hbudget : d.budget ≠ 0)
      (hd : d.dies = false) (h : Spends (d.budget - d.paid) lives ds) :
      Spends d.budget lives (d :: ds)

/-- The demands of a turn, given its budget and whether the thread lives to its end. -/
structure Turn (budget : Nat) (lives : Bool) (ds : List Demand) : Prop where
  ne_nil : ds ≠ []
  /-- Only the last instruction may be deferred or fail. -/
  succeeds : ∀ d ∈ ds.dropLast, d.succeeds = true
  /-- A thread that does not live to the end dies of its last instruction. -/
  dies_eq : ∀ d ∈ ds.getLast?, d.dies = !lives
  sum_eq : lives = true → (ds.map paid).sum = budget
  sum_pos : 0 < (ds.map paid).sum
  sum_le : (ds.map paid).sum ≤ budget

variable {budget : Nat} {lives : Bool} {ds : List Demand}

/-- Nobody spends what is not there. -/
theorem Spends.of_eq_zero (h : Spends budget lives ds) (hzero : budget = 0) :
    ds = [] ∧ lives = true := by
  cases h with
  | spent => exact ⟨rfl, rfl⟩
  | die hbudget => exact absurd hzero hbudget
  | pay hbudget => exact absurd hzero hbudget

theorem Spends.turn (h : Spends budget lives ds) (hbudget : budget ≠ 0) :
    Turn budget lives ds := by
  induction h with
  | spent => exact absurd rfl hbudget
  | @die d hbudget hd =>
      have hpos := paid_pos hbudget
      have hle : d.paid ≤ d.budget := Nat.min_le_left _ _
      exact ⟨by simp, by simp, by simp [hd], by simp, by simpa using hpos, by simpa using hle⟩
  | @pay d lives ds hbudget hd h ih =>
      have hpos := paid_pos hbudget
      have hle : d.paid ≤ d.budget := Nat.min_le_left _ _
      by_cases hleft : d.budget - d.paid = 0
      · -- Nothing is left, whether the instruction was executed or deferred.
        obtain ⟨rfl, rfl⟩ := h.of_eq_zero hleft
        have heq : d.paid = d.budget := by omega
        exact ⟨by simp, by simp, by simp [hd], by simp [heq], by simpa using hpos,
          by simpa using hle⟩
      · have hmet : d.isMet = true := by
          by_contra hmet
          exact hleft (by rw [paid_of_not_isMet (eq_false_of_ne_true hmet), Nat.sub_self])
        obtain ⟨hne, hsucceeds, hdies, heq, hrestPos, hrestLe⟩ := ih hleft
        have hsum : ((d :: ds).map paid).sum = d.paid + (ds.map paid).sum := by simp
        refine ⟨by simp, ?_, ?_, fun hlives => ?_, by omega, by omega⟩
        · rw [List.dropLast_cons_of_ne_nil hne]
          exact List.forall_mem_cons.mpr ⟨succeeds_of_isMet hmet hd, hsucceeds⟩
        · rwa [List.getLast?_cons_of_ne_nil hne]
        · have hrest := heq hlives
          omega

/-- A thread that does not die of any demand lives. -/
theorem Turn.lives_of_forall (h : Turn budget lives ds) (hall : ∀ d ∈ ds, d.dies = false) :
    lives = true := by
  have hlast := List.getLast?_eq_getLast_of_ne_nil h.ne_nil
  have hdies := h.dies_eq _ hlast
  rw [hall _ (List.getLast_mem h.ne_nil)] at hdies
  simpa using hdies

end Demand

/-! ## One turn -/

namespace Game

/-- Whether the player with an index has a thread. -/
def lives (g : Game) (i : Nat) : Bool := g.players[i]?.any Player.isAlive

/-- What the player with an index plays with. -/
def unscored? (g : Game) (i : Nat) : Option Player := g.players[i]?.map Player.unscored

variable {g g' : Game} {i : Nat}

theorem lives_eq_of_unscored?_eq (h : g'.unscored? i = g.unscored? i) : g'.lives i = g.lives i := by
  have hkey (g : Game) : g.lives i = (g.unscored? i).any Player.isAlive := by
    rw [unscored?, Option.any_map]
    rfl
  rw [hkey, h, ← hkey]

theorem unscored?_charge (g : Game) (pid : UInt8) (t : Thread) (budget : Nat) :
    (g.charge pid t budget).game.unscored? i = g.unscored? i := by
  rw [unscored?, players_charge, unscored?]

theorem unscored?_kill (g : Game) (index : Nat) (pid : UInt8) (t : Thread) :
    (g.kill index pid t).unscored? i = g.unscored? i := by
  have hsame := congrArg (·[i]?) (g.map_unscored_kill pid t index)
  simpa only [unscored?, Array.getElem?_map] using hsame

/-- The cycles that players can take, player by player. -/
theorem sum_reserve (f : Nat → Nat)
    (h : ∀ i x, g.players[i]? = some x →
      f i = if x.isAlive then x.turnBudget g.rules.cyclesPerTurn else 0) :
    ((List.range g.players.size).map f).sum = g.reserve := by
  have hmap : (List.range g.players.size).map f = g.players.toList.map fun x =>
      if x.isAlive then x.turnBudget g.rules.cyclesPerTurn else 0 := by
    apply List.ext_getElem
    · simp
    · intro i hi hi'
      have hlt : i < g.players.size := by simpa using hi
      simpa using h i _ (Array.getElem?_eq_getElem hlt)
  rw [hmap, reserve_eq, reserveOf, List.sum, List.foldr_map]

end Game

namespace Session

open Demand Point

variable {s : Session} {i j : Nat} {pid : UInt8} {t : Thread} {budget : Nat}

theorem unscored?_work (hij : j ≠ i) :
    (s.work i pid t budget).game.unscored? j = s.game.unscored? j := by
  fun_induction work s i pid t budget with
  | case1 t game log =>
      change ((game.players.modify i (·.requeue t))[j]?).map Player.unscored = _
      rw [Array.getElem?_modify, if_neg hij.symm]
      rfl
  | case2 t budget game log hbudget next after left event fault? hc =>
      rw [← game.unscored?_charge pid t budget, hc]
  | case3 t budget game log hbudget next after left event fault? hc =>
      rw [next.unscored?_kill, ← game.unscored?_charge pid t budget, hc]
  | case4 t budget game log hbudget next after left event fault? hc _ _ _ ih =>
      rw [ih, ← game.unscored?_charge pid t budget, hc]

/-- A turn leaves the other players as they are, but for their results. -/
theorem unscored?_turn (hij : j ≠ i) : (s.turn i).game.unscored? j = s.game.unscored? j := by
  cases hlog : s.log.refused with
  | true => rw [turn_of_refused hlog]
  | false =>
      cases hnext : s.game.next? i with
      | none => rw [turn_of_next?_eq_none hnext]
      | some x =>
          obtain ⟨t, p⟩ := x
          rw [turn_of_next?_eq_some hlog hnext, unscored?_work hij]
          change ((s.game.players.setIfInBounds i p)[j]?).map Player.unscored = _
          rw [Array.getElem?_setIfInBounds_ne hij.symm]
          rfl

/-- The demands of the turn that a player with an index is given in a session. -/
structure Block (s : Session) (i : Nat) (ds : List Demand) : Prop where
  pays : Pays ⟨s, .turn i⟩ ds ⟨s.turn i, .turn (i + 1)⟩
  index_eq : ∀ d ∈ ds, d.index = i
  passed : s.game.lives i = false → ds = []
  taken : ∀ x, s.game.players[i]? = some x → x.isAlive = true →
    Demand.Turn (x.turnBudget s.game.rules.cyclesPerTurn) ((s.turn i).game.lives i) ds

end Session

namespace Point

open Demand

variable {p q r : Point} {ds : List Demand}

/-- The log takes every event, and no player has more than one thread. -/
structure Steady (p : Point) : Prop where
  unlimited : p.session.log.capacity = none ∧ p.session.log.refused = false
  tallied : ∃ lost, Tallied lost p

theorem steady_step (hp : p.Steady) (h : Step p q) : q.Steady :=
  ⟨unlimited_step hp.unlimited h, exists_tallied_step hp.tallied h⟩

theorem steady_of_reaches (hp : p.Steady) (h : Reaches p q) : q.Steady :=
  invariant (fun _ _ => steady_step) hp h

/-- A player who has no thread never has one again. -/
theorem gone_of_pays {i : Nat} (hp : p.Steady) (hgone : ∀ t, ¬p.Holds i t) (h : Pays p ds q) :
    ∀ d ∈ ds, d.index ≠ i := by
  induction h with
  | refl => simp
  | @head p q r ds hstep _ ih =>
      obtain ⟨-, lost, htallied⟩ := id hp
      have hfaced : ∀ d, p.demand? = some d → d.index ≠ i := by
        rintro d hd rfl
        exact hgone d.thread (.inr ⟨d.pid, d.budget, stage_of_demand? hd⟩)
      have hrest : ∀ t, ¬q.Holds i t := by
        intro t ht
        cases hd : p.demand? with
        | none => exact hgone t (holds_of_demand?_eq_none hstep hd ht)
        | some d =>
            rcases holds_of_demand? htallied hstep hd ht with ⟨rfl, -⟩ | ⟨-, ht⟩
            · exact hfaced d hd rfl
            · exact hgone t ht
      intro d hd
      rcases List.mem_append.mp hd with hd | hd
      · exact hfaced d (Option.mem_toList.mp hd)
      · exact ih (steady_step hp hstep) hrest d hd

/-- A charge comes before all demands that follow. -/
theorem Pays.charge {s : Session} {i : Nat} {pid : UInt8} {t : Thread} {budget : Nat}
    (hbudget : budget ≠ 0) (hstep : Step ⟨s, .hand i pid t budget⟩ q) (h : Pays q ds r) :
    Pays ⟨s, .hand i pid t budget⟩ (⟨s.game, i, pid, t, budget⟩ :: ds) r := by
  have hpays := Pays.head hstep h
  rwa [demand?_hand hbudget] at hpays

end Point

namespace Session

open Demand Point

variable {s : Session} {i j : Nat} {pid : UInt8} {t : Thread} {budget : Nat}

/-- A thread in hand spends its budget.  Its player, which has no other thread, then has it
back or has none. -/
theorem exists_spends_work (hs : Steady ⟨s, .hand i pid t budget⟩) :
    ∃ ds, Pays ⟨s, .hand i pid t budget⟩ ds ⟨s.work i pid t budget, .turn (i + 1)⟩ ∧
      (∀ d ∈ ds, d.index = i) ∧ Spends budget ((s.work i pid t budget).game.lives i) ds := by
  -- The recursion stops where the budget is spent or the thread is dead; the other two cases
  -- are a log that refuses an event, which a log without a limit never does, and a charge.
  fun_induction work s i pid t budget with
  | case1 t game log =>
      obtain ⟨hunlimited, lost, -, ⟨x, hx, -⟩, -⟩ := hs
      have hlives : (game.requeue i t).lives i = true := by
        change ((game.players.modify i (·.requeue t))[i]?).any Player.isAlive = true
        rw [Array.getElem?_modify, if_pos rfl]
        have hx : game.players[i]? = some x := hx
        rw [hx]
        exact x.isAlive_requeue t
      refine ⟨[], .single (.spent hunlimited.2), by simp, ?_⟩
      rw [hlives]
      exact .spent
  | case2 t budget game log hbudget next after left event fault? hc log' hpush =>
      have hstep := @Step.refuse ⟨game, log⟩ i pid t budget hs.unlimited.2 hbudget
      simp only [hc] at hstep
      have hopen := (steady_step hs (hstep hpush)).unlimited.2
      exact absurd (hpush.symm.trans hopen) (by decide)
  | case3 t budget game log hbudget next after left event fault? hc log' hpush hfault =>
      let d : Demand := ⟨game, i, pid, t, budget⟩
      have hcharge : d.charge = ⟨next, after, left, event, fault?⟩ := hc
      have hdies : d.dies = true := by
        rw [← d.isSome_fault?_charge, hcharge]
        exact hfault
      have hstep := @Step.die ⟨game, log⟩ i pid t budget hs.unlimited.2 hbudget
      simp only [hc] at hstep
      have hnext := hstep (eq_false_of_ne_true hpush) hfault
      have hdead : (next.kill i pid after).lives i = false := by
        obtain ⟨-, lost, -, ⟨x, hx, hnil⟩, -⟩ := hs
        have hsame := game.unscored?_charge (i := i) pid t budget
        rw [hc, ← next.unscored?_kill i pid after] at hsame
        rw [Game.lives_eq_of_unscored?_eq hsame]
        simp [Game.lives, hx, Player.isAlive, hnil]
      refine ⟨[d], .charge hbudget hnext (.refl _), by simp [d], ?_⟩
      rw [hdead]
      exact .die hbudget hdies
  | case4 t budget game log hbudget next after left event fault? hc log' hpush hfault ih =>
      let d : Demand := ⟨game, i, pid, t, budget⟩
      have hcharge : d.charge = ⟨next, after, left, event, fault?⟩ := hc
      have hlives : d.dies = false := by
        rw [← d.isSome_fault?_charge, hcharge]
        exact eq_false_of_ne_true hfault
      obtain rfl : left = d.budget - d.paid := by rw [← d.budget_charge, hcharge]
      have hstep := @Step.pay ⟨game, log⟩ i pid t budget hs.unlimited.2 hbudget
      simp only [hc] at hstep
      have hnext := hstep (eq_false_of_ne_true hpush) (eq_false_of_ne_true hfault)
      obtain ⟨ds, hpays, hindex, hspends⟩ := ih (steady_step hs hnext)
      exact ⟨d :: ds, .charge hbudget hnext hpays, List.forall_mem_cons.mpr ⟨rfl, hindex⟩,
        .pay hbudget hlives hspends⟩

theorem exists_turn (hs : Steady ⟨s, .turn i⟩) (hi : i < s.game.players.size) :
    ∃ ds, s.Block i ds := by
  cases hnext : s.game.next? i with
  | none =>
      have hsame : s.turn i = s := turn_of_next?_eq_none hnext
      refine ⟨[], ?_, by simp, fun _ => rfl, fun x hx hlives => ?_⟩
      · rw [hsame]
        exact .single (.skip hs.unlimited.2 hi hnext)
      · rw [Game.next?_eq_none_iff.mp hnext x hx] at hlives
        cases hlives
  | some y =>
      obtain ⟨t, p⟩ := y
      obtain ⟨x, hx, hqueue, hp⟩ := Game.next?_eq_some_iff.mp hnext
      have hstep := Step.take hs.unlimited.2 hi hnext
      obtain ⟨ds, hpays, hindex, hspends⟩ := exists_spends_work (steady_step hs hstep)
      rw [← turn_of_next?_eq_some hs.unlimited.2 hnext] at hpays hspends
      have hbudget := Nat.pos_iff_ne_zero.mp (p.turnBudget_pos s.game.rules.cyclesPerTurn)
      refine ⟨ds, ?_, hindex, fun hdead => ?_, fun y hy _ => ?_⟩
      · exact .head hstep hpays
      · simp [Game.lives, hx, Player.isAlive, hqueue] at hdead
      · rw [hx] at hy
        cases hy
        have hsame : p.turnBudget s.game.rules.cyclesPerTurn
            = x.turnBudget s.game.rules.cyclesPerTurn := by
          rw [hp]
          rfl
        rw [← hsame]
        exact hspends.turn hbudget

/-! ## One round -/

/-- A session after the turns of the players before an index. -/
def upTo (s : Session) (i : Nat) : Session := (List.range i).foldl turn s

theorem upTo_succ (s : Session) (i : Nat) : s.upTo (i + 1) = (s.upTo i).turn i := by
  rw [upTo, List.range_succ, List.foldl_append, ← upTo]
  rfl

/-- A player is as the round has found it until its own turn. -/
theorem unscored?_upTo (s : Session) (hij : i ≤ j) :
    (s.upTo i).game.unscored? j = s.game.unscored? j := by
  induction i with
  | zero => rfl
  | succ i ih =>
      rw [upTo_succ, unscored?_turn (by omega)]
      exact ih (by omega)

/-- A player stays as its own turn has left it. -/
theorem unscored?_upTo_of_lt (s : Session) {n : Nat} (hin : i < n) :
    (s.upTo n).game.unscored? i = (s.upTo (i + 1)).game.unscored? i := by
  induction n, hin using Nat.le_induction with
  | base => rfl
  | succ n hle ih =>
      rw [upTo_succ, unscored?_turn (by omega)]
      exact ih

theorem reaches_upTo (hs : Steady ⟨s, .turn 0⟩) (hi : i ≤ s.game.players.size) :
    Reaches ⟨s, .turn 0⟩ ⟨s.upTo i, .turn i⟩ := by
  induction i with
  | zero => exact .refl
  | succ i ih =>
      have hbefore := ih (by omega)
      have hsteady := steady_of_reaches hs hbefore
      have hsize : (s.upTo i).game.players.size = s.game.players.size :=
        size_of_reaches hbefore
      obtain ⟨ds, hturn⟩ := exists_turn hsteady (by omega)
      rw [upTo_succ]
      exact hbefore.trans (reaches_of_pays hturn.pays)

theorem exists_turns (hs : Steady ⟨s, .turn 0⟩) :
    ∃ block : Nat → List Demand, ∀ i < s.game.players.size, (s.upTo i).Block i (block i) := by
  have hturn : ∀ i, ∃ ds, i < s.game.players.size → (s.upTo i).Block i ds := by
    intro i
    by_cases hi : i < s.game.players.size
    · have hbefore := reaches_upTo hs (Nat.le_of_lt hi)
      have hsize : (s.upTo i).game.players.size = s.game.players.size :=
        size_of_reaches hbefore
      obtain ⟨ds, h⟩ := exists_turn (steady_of_reaches hs hbefore) (hsize ▸ hi)
      exact ⟨ds, fun _ => h⟩
    · exact ⟨[], fun h => absurd h hi⟩
  choose block hblock using hturn
  exact ⟨block, hblock⟩

variable {block : Nat → List Demand} {n : Nat}

theorem pays_upTo (h : ∀ i < n, (s.upTo i).Block i (block i)) :
    Pays ⟨s, .turn 0⟩ ((List.range n).flatMap block) ⟨s.upTo n, .turn n⟩ := by
  induction n with
  | zero => exact .refl _
  | succ n ih =>
      rw [List.range_succ, List.flatMap_append, List.flatMap_singleton, upTo_succ]
      exact (ih fun i hi => h i (by omega)).trans (h n (Nat.lt_succ_self n)).pays

/-- The cycles of a round are those of its turns. -/
theorem cycle_upTo (h : ∀ i < n, (s.upTo i).Block i (block i)) :
    (s.upTo n).game.cycle =
      s.game.cycle + ((List.range n).map fun i => ((block i).map paid).sum).sum := by
  induction n with
  | zero => rfl
  | succ n ih =>
      have hbefore := ih fun i hi => h i (by omega)
      have hlast : (s.upTo n).game.cycle + ((block n).map paid).sum
          = ((s.upTo n).turn n).game.cycle :=
        (tiles_of_pays (h n (Nat.lt_succ_self n)).pays).add_sum_eq
      rw [upTo_succ, List.range_succ, List.map_append, List.sum_append, List.map_singleton,
        List.sum_singleton, ← hlast, hbefore, Nat.add_assoc]

/-- The demands of a round, block by block: one block for each player. -/
structure RoundRobin (s : Session) (block : Nat → List Demand) : Prop where
  pays : Pays ⟨s, .round⟩ ((List.range s.game.players.size).flatMap block) ⟨s.round, .round⟩
  events_eq : s.round.log.events.toList = s.log.events.toList ++
    ((List.range s.game.players.size).flatMap block).map Demand.event
  tiles : Tiles s.game.cycle ((List.range s.game.players.size).flatMap block) s.round.game.cycle
  numbered : ∀ i < s.game.players.size, ∀ d ∈ block i, d.index = i ∧ d.pid.toNat = i + 1
  /-- Players without threads are passed over. -/
  passed : ∀ i < s.game.players.size, s.game.lives i = false → block i = []
  /-- Each other player has a turn. -/
  taken : ∀ i x, s.game.players[i]? = some x → x.isAlive = true →
    Demand.Turn (x.turnBudget s.game.rules.cyclesPerTurn) (s.round.game.lives i) (block i)
  /-- Who has lost its thread never plays again. -/
  gone : ∀ i, s.round.game.lives i = false → ∀ ds q, Pays ⟨s.round, .round⟩ ds q →
    ∀ d ∈ ds, d.index ≠ i ∧ d.pid.toNat ≠ i + 1
  /-- If nobody dies, all budgets are spent. -/
  cycle_eq : (∀ i < s.game.players.size, ∀ d ∈ block i, d.dies = false) →
    s.round.game.cycle = s.game.cycle + s.game.reserve

/-- The turns of a round, each seen from where the round begins and ends. -/
theorem taken_round (hturns : ∀ i < s.game.players.size, (s.upTo i).Block i (block i))
    {x : Player} (hx : s.game.players[i]? = some x) (hlives : x.isAlive = true) :
    Demand.Turn (x.turnBudget s.game.rules.cyclesPerTurn) (s.round.game.lives i) (block i) := by
  obtain ⟨hi, -⟩ := Array.getElem?_eq_some_iff.mp hx
  have hpays := pays_upTo fun j hj => hturns j (Nat.lt_trans hj hi)
  have hrules : (s.upTo i).game.rules = s.game.rules := rules_of_reaches (reaches_of_pays hpays)
  have hafter : s.round.game.lives i = ((s.upTo i).turn i).game.lives i := by
    rw [← upTo_succ]
    exact Game.lives_eq_of_unscored?_eq (s.unscored?_upTo_of_lt hi)
  -- The turn finds another player, but one that plays with the same.
  have hbefore := s.unscored?_upTo (Nat.le_refl i)
  rw [Game.unscored?, Game.unscored?, hx] at hbefore
  obtain ⟨y, hy, hsame⟩ := Option.map_eq_some_iff.mp hbefore
  have hqueue := congrArg Player.isAlive hsame
  have hbudget := congrArg (·.turnBudget s.game.rules.cyclesPerTurn) hsame
  change y.isAlive = x.isAlive at hqueue
  change y.turnBudget _ = x.turnBudget _ at hbudget
  have htaken := (hturns i hi).taken y hy (hqueue.trans hlives)
  rwa [hrules, hbudget, ← hafter] at htaken

theorem passed_round (hturns : ∀ i < s.game.players.size, (s.upTo i).Block i (block i))
    (hi : i < s.game.players.size) (hdead : s.game.lives i = false) : block i = [] := by
  have hbefore := Game.lives_eq_of_unscored?_eq (s.unscored?_upTo (Nat.le_refl i))
  exact (hturns i hi).passed (hbefore.trans hdead)

theorem exists_roundRobin (hs : Steady ⟨s, .round⟩) (hover : s.game.isOver = false)
    (hnumbered : s.game.Numbered) : ∃ block, s.RoundRobin block := by
  -- From the round to its first turn, through all turns, and back to the round.
  have henter := Step.enter hs.unlimited.2 hover
  have hsteady := steady_step hs henter
  obtain ⟨block, hturns⟩ := exists_turns hsteady
  have hafter := steady_of_reaches hs (reaches_round hs.unlimited.2 hover)
  have hpays : Pays ⟨s, .round⟩ ((List.range s.game.players.size).flatMap block)
      ⟨s.round, .round⟩ := by
    have hturns := pays_upTo hturns
    have hsize : s.round.game.players.size = s.game.players.size :=
      size_of_reaches (reaches_of_pays hturns)
    have hleave := Step.leave hafter.unlimited.2 (Nat.le_of_eq hsize)
    have hall := (Pays.single henter).trans (hturns.trans (.single hleave))
    simpa [demand?] using hall
  obtain ⟨hlater, hpids⟩ := numbered_of_pays (p := ⟨s, .round⟩) ⟨hnumbered, by simp⟩ hpays
  refine ⟨block, ?_⟩
  constructor
  · exact hpays
  · exact events_of_pays hs.unlimited hpays
  · exact tiles_of_pays hpays
  · intro i hi d hd
    have hindex := (hturns i hi).index_eq d hd
    have hmem : d ∈ (List.range s.game.players.size).flatMap block :=
      List.mem_flatMap.mpr ⟨i, List.mem_range.mpr hi, hd⟩
    exact ⟨hindex, hindex ▸ hpids d hmem⟩
  · intro i hi hdead
    exact passed_round hturns hi hdead
  · intro i x hx hlives
    exact taken_round hturns hx hlives
  · intro i hdead ds q hq d hd
    have hindex : d.index ≠ i := by
      apply gone_of_pays hafter _ hq d hd
      rintro t (⟨x, hx, ht⟩ | ⟨pid, budget, hstage⟩)
      · have hx : s.round.game.players[i]? = some x := hx
        rw [Game.lives, hx] at hdead
        have hnil : x.queue = [] := by simpa [Player.isAlive] using hdead
        rw [hnil] at ht
        cases ht
      · cases hstage
    have hpid := (numbered_of_pays hlater hq).2 d hd
    exact ⟨hindex, by omega⟩
  · intro hall
    rw [← Game.sum_reserve (fun i => ((block i).map paid).sum)]
    · exact cycle_upTo hturns
    · intro i x hx
      obtain ⟨hi, -⟩ := Array.getElem?_eq_some_iff.mp hx
      cases hlives : x.isAlive with
      | false =>
          have hdead : s.game.lives i = false := by rw [Game.lives, hx, Option.any_some, hlives]
          rw [passed_round hturns hi hdead]
          rfl
      | true =>
          have htaken := taken_round hturns hx hlives
          exact htaken.sum_eq (htaken.lives_of_forall (hall i hi))

end Session

/-! ## All rounds of a call -/

namespace Game

open Demand Point

/-- Every round of a call whose log takes every event is played turn by turn. -/
theorem Orderly.exists_roundRobin {g : Game} {rules : Rules} {ds : List Demand}
    (h : g.Orderly rules ds) {s : Session} (hs : Reaches (g.outset none) ⟨s, .round⟩)
    (hover : s.game.isOver = false) : ∃ block, s.RoundRobin block := by
  obtain ⟨lost, htallied⟩ := h.tallied
  have hsteady : (g.outset none).Steady :=
    ⟨g.unlimited_outset, lost, (outset_cases htallied none).1⟩
  obtain ⟨ds', hpays⟩ := exists_pays_of_reaches hs
  have hnumbered := (numbered_of_pays (h.numbered_outset none) hpays).1
  exact Session.exists_roundRobin (steady_of_reaches hsteady hs) hover hnumbered.game

/-- The rounds of a call that plays a match with a log that takes every event. -/
structure Scheduled (g : Game) (ss : List Session) : Prop where
  rounds : Session.RoundsTo (g.outset none).session ss (g.outset none).session.rounds.1
  events_eq : (g.play none).events = (g.outset none).session.rounds.1.log.events.toList
  roundRobin : ∀ s ∈ ss, ∃ block, s.RoundRobin block

/-- Whatever calls have played before: in every round of the next one each player with a
thread has one turn, and spends all of its budget unless it dies. -/
theorem scheduled_of_fresh {c : Configuration} {g₀ g : Game} {lost : Nat} (hc : c.Accepted)
    (hg : c.Fresh g₀) (h : g₀.Leads lost g) :
    (∃ ss, g.Scheduled ss) ∧
      ∀ s, Reaches (g.outset none) ⟨s, .round⟩ → s.game.isOver = false →
        ∃ block, s.RoundRobin block := by
  obtain ⟨ds, hds⟩ := exists_history_of_leads h
  have horderly := orderly_of_history (hg.orderly hc.wellFormed) hds
  refine ⟨?_, fun s hs hover => horderly.exists_roundRobin hs hover⟩
  obtain ⟨ss, hss⟩ := (g.outset none).session.exists_roundsTo
  refine ⟨ss, hss, events_play g none, ?_⟩
  intro s hs
  obtain ⟨hreaches, hover⟩ := hss.reaches hs
  exact horderly.exists_roundRobin hreaches hover

end Game

namespace Configuration

/-- The first player of the trapped duel dies in its first turn, and the second one spends
the budget of its own. -/
theorem scheduled_trappedDuel :
    duel.Accepted ∧ duel.Fresh trappedDuel ∧ trappedDuel.Leads 0 trappedDuel ∧
      (∃ ss, trappedDuel.Scheduled ss) ∧
      ∃ block, Session.RoundRobin (trappedDuel.outset none).session block := by
  have hfresh := fresh_clearedDuel.patch (Arena.empty.writeByte 0 0x7C 2)
  obtain ⟨hscheduled, hround⟩ := Game.scheduled_of_fresh accepted_duel hfresh .start
  exact ⟨accepted_duel, hfresh, .start, hscheduled, hround _ .refl (by decide +kernel)⟩

end Configuration
end CoreWar
