import CoreWar.Proofs.Match.Tally
import Mathlib.Algebra.Ring.Nat

/-!
# What threads are charged

A thread in hand is charged until its budget is spent or it fails.  Each time it
faces a `Demand`: it stands at some instruction, it owes some cycles, and the budget
pays for them or does not.

`Point.Pays` is a run of a match with the demands on it, in order.  A log that takes
every event tells of nothing else (`events_of_pays`), and the demands follow one
another without a gap in the count of cycles (`tiles_of_pays`).
-/

namespace CoreWar

/-- A thread that is about to be charged. -/
structure Demand where
  /-- The game as it is before the charge. -/
  game : Game
  /-- The index of the player whose thread it is. -/
  index : Nat
  pid : UInt8
  thread : Thread
  /-- What is left of the budget of the turn. -/
  budget : Nat

namespace Demand

variable (d : Demand)

/-- What comes of the charge. -/
def charge : Charge := d.game.charge d.pid d.thread d.budget

/-- The cost of the operation that the thread stands at. -/
def cost : Nat := d.game.rules.costs.cost (d.game.arena.opcodeAt d.thread.ip)

/-- What the thread owes. -/
def owed : Nat := d.game.rules.costs.owed d.game.arena d.thread

/-- The cycles that are charged. -/
def paid : Nat := min d.budget d.owed

/-- Whether the budget pays for all that is owed.  If so, the instruction is
executed; if not, it is deferred. -/
def isMet : Bool := decide (d.owed ≤ d.budget)

/-- What executing the instruction comes to. -/
def result : Except Fault Instruction :=
  (Machine.mk { d.thread with debt := 0 } d.game.arena d.pid).step.result

/-- The instruction is executed and does not fail. -/
def succeeds : Bool := d.isMet && d.result.isOk

/-- The instruction is executed and fails. -/
def dies : Bool := d.isMet && !d.result.isOk

/-- How a log tells of the demand. -/
def event : Event :=
  .exec d.game.cycle d.pid d.thread.ip (if d.succeeds then some (d.game.cycle + d.paid) else none)

/-! ## Charges as answers to demands -/

variable {d}

theorem owed_pos : 0 < d.owed := d.game.rules.costs.owed_pos d.game.arena d.thread

theorem paid_pos (h : d.budget ≠ 0) : 0 < d.paid := by
  have howed := d.owed_pos
  unfold paid
  omega

theorem owed_eq_cost (h : d.thread.debt = 0) : d.owed = d.cost := if_pos h

theorem owed_eq_debt (h : d.thread.debt ≠ 0) : d.owed = d.thread.debt := if_neg h

theorem paid_of_isMet (h : d.isMet = true) : d.paid = d.owed :=
  Nat.min_eq_right (of_decide_eq_true h)

theorem paid_of_not_isMet (h : d.isMet = false) : d.paid = d.budget :=
  Nat.min_eq_left (Nat.le_of_lt (Nat.lt_of_not_le (of_decide_eq_false h)))

theorem dies_of_not_isMet (h : d.isMet = false) : d.dies = false := by simp [dies, h]

theorem succeeds_of_isMet (h : d.isMet = true) (hd : d.dies = false) : d.succeeds = true := by
  simpa [succeeds, dies, h] using hd

/-- A demand that the budget does not pay for leaves a debt. -/
theorem charge_of_not_isMet (h : d.isMet = false) :
    d.charge = ⟨{ d.game with cycle := d.game.cycle + d.paid },
      { d.thread with debt := d.owed - d.budget }, 0, d.event, none⟩ := by
  have hlt : d.budget < d.owed := Nat.lt_of_not_le (of_decide_eq_false h)
  rw [event, paid_of_not_isMet h, succeeds, h]
  exact Game.charge_of_lt hlt

/-- A demand that is met leaves what the step leaves, and no debt. -/
theorem charge_of_isMet (h : d.isMet = true) :
    d.charge.game.cycle = d.game.cycle + d.paid ∧ d.charge.budget = d.budget - d.paid ∧
      d.charge.event = d.event ∧ d.charge.fault?.isSome = d.dies ∧
      d.charge.thread.debt = 0 := by
  have hle : d.owed ≤ d.budget := of_decide_eq_true h
  rw [event, paid_of_isMet h, succeeds, dies, h, result]
  have hdebt := Machine.debt_step ⟨{ d.thread with debt := 0 }, d.game.arena, d.pid⟩
  obtain ⟨hlt, -⟩ | ⟨-, m, i, hstep, hc⟩ | ⟨-, m, fault, hstep, hc⟩ :=
    d.game.charge_cases d.pid d.thread d.budget
  · exact absurd hle (Nat.not_le_of_lt hlt)
  · rw [hstep] at hdebt ⊢
    rw [charge, hc]
    exact ⟨rfl, rfl, rfl, rfl, hdebt⟩
  · rw [hstep] at hdebt ⊢
    rw [charge, hc]
    exact ⟨rfl, rfl, rfl, rfl, hdebt⟩

variable (d)

theorem cycle_charge : d.charge.game.cycle = d.game.cycle + d.paid := by
  cases h : d.isMet with
  | true => exact (charge_of_isMet h).1
  | false => rw [charge_of_not_isMet h]

theorem budget_charge : d.charge.budget = d.budget - d.paid := by
  cases h : d.isMet with
  | true => exact (charge_of_isMet h).2.1
  | false => rw [charge_of_not_isMet h, paid_of_not_isMet h, Nat.sub_self]

theorem event_charge : d.charge.event = d.event := by
  cases h : d.isMet with
  | true => exact (charge_of_isMet h).2.2.1
  | false => rw [charge_of_not_isMet h]

theorem isSome_fault?_charge : d.charge.fault?.isSome = d.dies := by
  cases h : d.isMet with
  | true => exact (charge_of_isMet h).2.2.2.1
  | false => rw [charge_of_not_isMet h, dies_of_not_isMet h, Option.isSome_none]

variable {d}

theorem debt_charge_of_isMet (h : d.isMet = true) : d.charge.thread.debt = 0 :=
  (charge_of_isMet h).2.2.2.2

end Demand

/-! ## The demands on a run -/

namespace Point

/-- The demand that the thread in hand faces, if its budget is not spent. -/
def demand? : Point → Option Demand
  | ⟨⟨g, _⟩, .hand i pid t budget⟩ => if budget = 0 then none else some ⟨g, i, pid, t, budget⟩
  | _ => none

/-- What steps lead to, with the demands on the way. -/
inductive Pays : Point → List Demand → Point → Prop
  | refl (p : Point) : Pays p [] p
  | head {p q r : Point} {ds : List Demand} (hstep : Step p q) (h : Pays q ds r) :
      Pays p (p.demand?.toList ++ ds) r

variable {p q r : Point} {ds ds' : List Demand}

theorem Pays.single (h : Step p q) : Pays p p.demand?.toList q := by
  simpa using Pays.head h (.refl q)

theorem Pays.trans (h : Pays p ds q) (h' : Pays q ds' r) : Pays p (ds ++ ds') r := by
  induction h with
  | refl => exact h'
  | head hstep _ ih =>
      rw [List.append_assoc]
      exact .head hstep (ih h')

theorem reaches_of_pays (h : Pays p ds q) : Reaches p q := by
  induction h with
  | refl => exact .refl
  | head hstep _ ih => exact .head hstep ih

theorem exists_pays_of_reaches (h : Reaches p q) : ∃ ds, Pays p ds q := by
  induction h using Relation.ReflTransGen.head_induction_on with
  | refl => exact ⟨[], .refl q⟩
  | head hstep _ ih =>
      obtain ⟨ds, hpays⟩ := ih
      exact ⟨_, .head hstep hpays⟩

/-- A demand of a thread in hand, and what its answer is. -/
theorem demand?_hand {s : Session} {i : Nat} {pid : UInt8} {t : Thread} {budget : Nat}
    (h : budget ≠ 0) :
    demand? ⟨s, .hand i pid t budget⟩ = some ⟨s.game, i, pid, t, budget⟩ := if_neg h

/-- A step either leaves the log and the cycles alone or answers a demand. -/
theorem demand_step (h : Step p q) :
    (p.demand? = none ∧ q.session.log = p.session.log ∧
        q.session.game.cycle = p.session.game.cycle) ∨
      ∃ d, p.demand? = some d ∧ d.game = p.session.game ∧ d.budget ≠ 0 ∧
        q.session.log = p.session.log.push d.event ∧
        q.session.game.cycle = p.session.game.cycle + d.paid := by
  cases h with
  | enter => exact .inl ⟨rfl, rfl, rfl⟩
  | leave => exact .inl ⟨rfl, rfl, rfl⟩
  | skip => exact .inl ⟨rfl, rfl, rfl⟩
  | take => exact .inl ⟨rfl, rfl, rfl⟩
  | spent => exact .inl ⟨rfl, rfl, rfl⟩
  | @refuse s i pid t budget _ hbudget =>
      let d : Demand := ⟨s.game, i, pid, t, budget⟩
      exact .inr ⟨d, demand?_hand hbudget, rfl, hbudget, congrArg s.log.push d.event_charge,
        d.cycle_charge⟩
  | @die s i pid t budget _ hbudget =>
      let d : Demand := ⟨s.game, i, pid, t, budget⟩
      exact .inr ⟨d, demand?_hand hbudget, rfl, hbudget, congrArg s.log.push d.event_charge,
        d.cycle_charge⟩
  | @pay s i pid t budget _ hbudget =>
      let d : Demand := ⟨s.game, i, pid, t, budget⟩
      exact .inr ⟨d, demand?_hand hbudget, rfl, hbudget, congrArg s.log.push d.event_charge,
        d.cycle_charge⟩

/-- A log without a limit tells of all demands and of nothing else. -/
theorem events_of_pays (hp : p.session.log.capacity = none ∧ p.session.log.refused = false)
    (h : Pays p ds q) :
    q.session.log.events.toList = p.session.log.events.toList ++ ds.map Demand.event := by
  induction h with
  | refl => rw [List.map_nil, List.append_nil]
  | @head p q r ds hstep _ ih =>
      rw [ih (unlimited_step hp hstep), List.map_append, ← List.append_assoc]
      congr 1
      obtain ⟨hnone, hlog, -⟩ | ⟨d, hd, -, -, hlog, -⟩ := demand_step hstep
      · rw [hnone, hlog, Option.toList_none, List.map_nil, List.append_nil]
      · have hroom := EventLog.isFull_of_unlimited hp.1
        rw [hd, hlog, EventLog.events_push_of_room hroom, Array.toList_push]
        rfl

/-- Every demand is made under the rules of the match. -/
theorem rules_of_pays (h : Pays p ds q) : ∀ d ∈ ds, d.game.rules = p.session.game.rules := by
  induction h with
  | refl => simp
  | head hstep _ ih =>
      intro d hd
      rcases List.mem_append.mp hd with hd | hd
      · obtain ⟨hnone, -⟩ | ⟨e, he, hgame, -⟩ := demand_step hstep
        · simp [hnone] at hd
        · rw [he, Option.toList_some, List.mem_singleton] at hd
          rw [hd, hgame]
      · rw [ih d hd, rules_step hstep]

end Point

/-! ## The numbers of players -/

/-- The player with index `i` has number `i + 1`. -/
def Game.Numbered (g : Game) : Prop :=
  ∀ (i : Nat) (x : Player), g.players[i]? = some x → x.pid.toNat = i + 1

theorem Game.Numbered.of_map_pid_eq {g g' : Game} (h : g.Numbered)
    (hsame : g'.players.map Player.pid = g.players.map Player.pid) : g'.Numbered := by
  intro i x hx
  obtain ⟨y, hy, hyx⟩ := Game.exists_getElem?_of_map_eq hsame hx
  rw [← hyx]
  exact h i y hy

theorem Game.map_pid_of_map_unscored_eq {g g' : Game}
    (hsame : g'.players.map Player.unscored = g.players.map Player.unscored) :
    g'.players.map Player.pid = g.players.map Player.pid := by
  have hpid (ps : Array Player) : ps.map Player.pid = (ps.map Player.unscored).map Player.pid := by
    rw [Array.map_map]
    rfl
  rw [hpid, hsame, ← hpid]

namespace Point

/-- Players and the thread in hand go by their numbers. -/
structure Numbered (p : Point) : Prop where
  game : p.session.game.Numbered
  hand : ∀ i pid t budget, p.stage = .hand i pid t budget → pid.toNat = i + 1

variable {p q : Point} {ds : List Demand}

/-- No step changes the number of a player. -/
theorem map_pid_step (h : Step p q) :
    q.session.game.players.map Player.pid = p.session.game.players.map Player.pid := by
  cases h with
  | enter => rfl
  | leave => rfl
  | skip => rfl
  | @take s i t p hlog hi hnext =>
      obtain ⟨x, hx, -, hp⟩ := Game.next?_eq_some_iff.mp hnext
      change (s.game.players.setIfInBounds i p).map Player.pid = s.game.players.map Player.pid
      rw [hp, ← Game.modify_eq_setIfInBounds (fun x => { x with queue := p.queue }) hx]
      exact Game.map_modify_eq_map fun _ => rfl
  | @spent s i pid t =>
      change (s.game.players.modify i (·.requeue t)).map Player.pid = _
      exact Game.map_modify_eq_map fun _ => rfl
  | refuse => exact congrArg (Array.map Player.pid) (Game.players_charge _ _ _ _)
  | @die s i pid t budget =>
      have hsame := (s.game.charge pid t budget).game.map_unscored_kill pid
        (s.game.charge pid t budget).thread i
      rw [Game.players_charge] at hsame
      exact Game.map_pid_of_map_unscored_eq hsame
  | pay => exact congrArg (Array.map Player.pid) (Game.players_charge _ _ _ _)

theorem numbered_step (hp : p.Numbered) (h : Step p q) : q.Numbered := by
  refine ⟨hp.game.of_map_pid_eq (map_pid_step h), ?_⟩
  cases h with
  | enter => simp
  | leave => simp
  | skip => simp
  | take hlog hi hnext =>
      rintro _ _ _ _ ⟨⟩
      obtain ⟨x, hx, -, hp'⟩ := Game.next?_eq_some_iff.mp hnext
      have hpid := congrArg Player.pid hp'
      exact hpid ▸ hp.game _ x hx
  | spent => simp
  | refuse => simp
  | die => simp
  | pay =>
      rintro _ _ _ _ ⟨⟩
      exact hp.hand _ _ _ _ rfl

theorem stage_of_demand? {d : Demand} (h : p.demand? = some d) :
    p.stage = .hand d.index d.pid d.thread d.budget := by
  obtain ⟨s, stage⟩ := p
  cases stage with
  | round => cases h
  | turn i => cases h
  | hand i pid t budget =>
      by_cases hbudget : budget = 0
      · simp [demand?, hbudget] at h
      · rw [demand?_hand hbudget] at h
        cases h
        rfl

/-- Every demand goes by the number of its player. -/
theorem numbered_of_pays (hp : p.Numbered) (h : Pays p ds q) :
    q.Numbered ∧ ∀ d ∈ ds, d.pid.toNat = d.index + 1 := by
  induction h with
  | refl => exact ⟨hp, by simp⟩
  | head hstep _ ih =>
      obtain ⟨hq, hrest⟩ := ih (numbered_step hp hstep)
      refine ⟨hq, fun d hd => ?_⟩
      rcases List.mem_append.mp hd with hd | hd
      · have hstage := stage_of_demand? (Option.mem_toList.mp hd)
        exact hp.hand _ _ _ _ hstage
      · exact hrest d hd

end Point

/-! ## Demands and the count of cycles -/

/-- Demands follow one another from one count of cycles to another, each from where
the one before has left it. -/
def Demand.Tiles : Nat → List Demand → Nat → Prop
  | first, [], last => first = last
  | first, d :: ds, last => d.game.cycle = first ∧ d.budget ≠ 0 ∧ Tiles (first + d.paid) ds last

namespace Point

variable {p q : Point} {ds : List Demand}

theorem tiles_of_pays (h : Pays p ds q) :
    Demand.Tiles p.session.game.cycle ds q.session.game.cycle := by
  induction h with
  | refl => rfl
  | head hstep _ ih =>
      obtain ⟨hnone, -, hcycle⟩ | ⟨d, hd, hgame, hbudget, -, hcycle⟩ := demand_step hstep
      · rw [hnone]
        rwa [hcycle] at ih
      · rw [hd]
        rw [hcycle] at ih
        exact ⟨congrArg Game.cycle hgame, hbudget, ih⟩

end Point

namespace Demand

variable {first last : Nat} {ds ds' : List Demand} {d : Demand}

/-- The demands of a run sum up to the cycles counted. -/
theorem Tiles.add_sum_eq (h : Tiles first ds last) : first + (ds.map paid).sum = last := by
  induction ds generalizing first with
  | nil => exact h
  | cons d ds ih =>
      have hrest := ih h.2.2
      rw [List.map_cons, List.sum_cons]
      omega

/-- No demand is made before the first cycle or from the last one on. -/
theorem Tiles.mem_range (h : Tiles first ds last) (hd : d ∈ ds) :
    first ≤ d.game.cycle ∧ d.game.cycle < last := by
  have hsum := h.add_sum_eq
  induction ds generalizing first with
  | nil => cases hd
  | cons e ds ih =>
      obtain ⟨hcycle, hbudget, hrest⟩ := h
      have hpaid := paid_pos hbudget
      rw [List.map_cons, List.sum_cons] at hsum
      rcases List.mem_cons.mp hd with rfl | hd
      · omega
      · have hlater := ih hrest hd hrest.add_sum_eq
        omega

end Demand
end CoreWar
