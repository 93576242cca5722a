import CoreWar.Match.Session
import CoreWar.Proofs.Match.Charge
import Mathlib.Logic.Relation

/-!
# The course of a match, step by step

Between two of its decisions a match stands at a `Point`: before a round, before
the turn of a player, or with a thread in hand and something left of its budget.
`Step` gives the decisions, one rule for each.

What is to hold all along a match is proved of its steps, by cases on the rule
(`Point.invariant`).  The steps also say what it means that a match comes to an
end: it `Halts` if it reaches a point from which no step leads on.
-/

namespace CoreWar

/-- What a match is about to do. -/
inductive Stage where
  /-- To see whether another round is played. -/
  | round
  /-- To give the player with an index its turn. -/
  | turn (index : Nat)
  /-- To let a thread of the player with an index go on, as far as its budget
  lasts. -/
  | hand (index : Nat) (pid : UInt8) (thread : Thread) (budget : Nat)

/-- Where a match stands. -/
structure Point where
  session : Session
  stage : Stage

namespace Point

/-- The decisions of a match. -/
inductive Step : Point → Point → Prop
  /-- Another round begins. -/
  | enter {s : Session} (hlog : s.log.refused = false) (hover : s.game.isOver = false) :
      Step ⟨s, .round⟩ ⟨s, .turn 0⟩
  /-- All players have had their turn. -/
  | leave {s : Session} {i : Nat} (hlog : s.log.refused = false)
      (hi : s.game.players.size ≤ i) : Step ⟨s, .turn i⟩ ⟨s, .round⟩
  /-- A player without threads is passed over. -/
  | skip {s : Session} {i : Nat} (hlog : s.log.refused = false) (hi : i < s.game.players.size)
      (hnext : s.game.next? i = none) : Step ⟨s, .turn i⟩ ⟨s, .turn (i + 1)⟩
  /-- A player takes the thread at the head of its queue in hand. -/
  | take {s : Session} {i : Nat} {t : Thread} {p : Player} (hlog : s.log.refused = false)
      (hi : i < s.game.players.size) (hnext : s.game.next? i = some (t, p)) :
      Step ⟨s, .turn i⟩
        ⟨⟨s.game.setPlayer i p, s.log⟩,
          .hand i p.pid t (p.turnBudget s.game.rules.cyclesPerTurn)⟩
  /-- The budget is spent, and the thread goes back to the queue. -/
  | spent {s : Session} {i : Nat} {pid : UInt8} {t : Thread} (hlog : s.log.refused = false) :
      Step ⟨s, .hand i pid t 0⟩ ⟨⟨s.game.requeue i t, s.log⟩, .turn (i + 1)⟩
  /-- The thread is charged, but the log refuses to record it. -/
  | refuse {s : Session} {i : Nat} {pid : UInt8} {t : Thread} {budget : Nat}
      (hlog : s.log.refused = false) (hbudget : budget ≠ 0)
      (hpush : (s.log.push (s.game.charge pid t budget).event).refused = true) :
      Step ⟨s, .hand i pid t budget⟩
        ⟨⟨(s.game.charge pid t budget).game, s.log.push (s.game.charge pid t budget).event⟩,
          .round⟩
  /-- The thread is charged and dies. -/
  | die {s : Session} {i : Nat} {pid : UInt8} {t : Thread} {budget : Nat}
      (hlog : s.log.refused = false) (hbudget : budget ≠ 0)
      (hpush : (s.log.push (s.game.charge pid t budget).event).refused = false)
      (hfault : (s.game.charge pid t budget).fault?.isSome = true) :
      Step ⟨s, .hand i pid t budget⟩
        ⟨⟨(s.game.charge pid t budget).game.kill i pid (s.game.charge pid t budget).thread,
            s.log.push (s.game.charge pid t budget).event⟩,
          .turn (i + 1)⟩
  /-- The thread is charged and goes on. -/
  | pay {s : Session} {i : Nat} {pid : UInt8} {t : Thread} {budget : Nat}
      (hlog : s.log.refused = false) (hbudget : budget ≠ 0)
      (hpush : (s.log.push (s.game.charge pid t budget).event).refused = false)
      (hfault : (s.game.charge pid t budget).fault?.isSome = false) :
      Step ⟨s, .hand i pid t budget⟩
        ⟨⟨(s.game.charge pid t budget).game, s.log.push (s.game.charge pid t budget).event⟩,
          .hand i pid (s.game.charge pid t budget).thread (s.game.charge pid t budget).budget⟩

/-- What steps lead to. -/
abbrev Reaches : Point → Point → Prop := Relation.ReflTransGen Step

/-- No step leads on. -/
def IsFinal (p : Point) : Prop := ∀ q, ¬Step p q

/-- The match comes to an end. -/
def Halts (p : Point) : Prop := ∃ q, Reaches p q ∧ q.IsFinal

/-- There is never a choice between two steps. -/
theorem step_unique : Relator.RightUnique Step := by
  intro p q r hq hr
  cases hq with
  | enter => cases hr with
    | enter => rfl
  | leave hlog hi => cases hr with
    | leave => rfl
    | skip _ hi' => omega
    | take _ hi' => omega
  | skip hlog hi hnext => cases hr with
    | leave _ hi' => omega
    | skip => rfl
    | take _ _ hnext' => simp [hnext] at hnext'
  | take hlog hi hnext => cases hr with
    | leave _ hi' => omega
    | skip _ _ hnext' => simp [hnext] at hnext'
    | take _ _ hnext' =>
        rw [hnext] at hnext'
        cases hnext'
        rfl
  | spent => cases hr with
    | spent => rfl
    | refuse _ hbudget => exact absurd rfl hbudget
    | die _ hbudget => exact absurd rfl hbudget
    | pay _ hbudget => exact absurd rfl hbudget
  | refuse hlog hbudget hpush => cases hr with
    | spent => exact absurd rfl hbudget
    | refuse => rfl
    | die _ _ hpush' => simp [hpush] at hpush'
    | pay _ _ hpush' => simp [hpush] at hpush'
  | die hlog hbudget hpush hfault => cases hr with
    | spent => exact absurd rfl hbudget
    | refuse _ _ hpush' => simp [hpush] at hpush'
    | die => rfl
    | pay _ _ _ hfault' => simp [hfault] at hfault'
  | pay hlog hbudget hpush hfault => cases hr with
    | spent => exact absurd rfl hbudget
    | refuse _ _ hpush' => simp [hpush] at hpush'
    | die _ _ _ hfault' => simp [hfault] at hfault'
    | pay => rfl

/-- Nothing else is reached from where no step leads on. -/
theorem IsFinal.eq_of_reaches {p q : Point} (hp : p.IsFinal) (h : Reaches p q) : q = p := by
  obtain hsame | ⟨r, hstep, -⟩ := h.cases_head
  · exact hsame.symm
  · exact absurd hstep (hp r)

/-- There is only one course, so all that is reached lies before a final point. -/
theorem IsFinal.reaches_of_reaches {p q r : Point} (hq : q.IsFinal) (h : Reaches p q)
    (hr : Reaches p r) : Reaches r q := by
  rcases Relation.ReflTransGen.total_of_right_unique step_unique h hr with hback | hon
  · rw [hq.eq_of_reaches hback]
  · exact hon

/-- What every step keeps holds of all that is reached. -/
theorem invariant {P : Point → Prop} (hstep : ∀ p q, P p → Step p q → P q) {p q : Point}
    (hp : P p) (h : Reaches p q) : P q := by
  induction h with
  | refl => exact hp
  | tail _ hqr ih => exact hstep _ _ ih hqr

/-! ## What steps keep -/

section Steps

variable {p q : Point}

theorem rules_step (h : Step p q) : q.session.game.rules = p.session.game.rules := by
  cases h with
  | enter => rfl
  | leave => rfl
  | skip => rfl
  | take => rfl
  | spent => rfl
  | refuse => exact Game.rules_charge _ _ _ _
  | die => exact Game.rules_charge _ _ _ _
  | pay => exact Game.rules_charge _ _ _ _

theorem size_step (h : Step p q) :
    q.session.game.players.size = p.session.game.players.size := by
  cases h with
  | enter => rfl
  | leave => rfl
  | skip => rfl
  | take => exact Array.size_setIfInBounds
  | spent => exact Array.size_modify
  | refuse => exact congrArg Array.size (Game.players_charge _ _ _ _)
  | @die s i pid t budget =>
      have h := congrArg Array.size ((s.game.charge pid t budget).game.map_unscored_kill pid
        (s.game.charge pid t budget).thread i)
      rw [Array.size_map, Array.size_map, Game.players_charge] at h
      exact h
  | pay => exact congrArg Array.size (Game.players_charge _ _ _ _)

theorem alive_step (h : Step p q) : q.session.game.alive ≤ p.session.game.alive := by
  cases h with
  | enter => exact Nat.le_refl _
  | leave => exact Nat.le_refl _
  | skip => exact Nat.le_refl _
  | take => exact Nat.le_refl _
  | spent => exact Nat.le_refl _
  | refuse => exact Nat.le_of_eq (Game.alive_charge _ _ _ _)
  | @die s i pid t budget =>
      rw [← s.game.alive_charge pid t budget]
      unfold Game.kill
      dsimp only
      split
      · exact Nat.sub_le _ _
      · exact Nat.le_refl _
  | pay => exact Nat.le_of_eq (Game.alive_charge _ _ _ _)

/-- A step either leaves the log and the cycles alone or is a charge. -/
theorem log_step (h : Step p q) :
    (q.session.log = p.session.log ∧ q.session.game.cycle = p.session.game.cycle) ∨
      ∃ i pid t budget, p.stage = .hand i pid t budget ∧ budget ≠ 0 ∧
        q.session.log = p.session.log.push (p.session.game.charge pid t budget).event ∧
        q.session.game.cycle = (p.session.game.charge pid t budget).game.cycle := by
  cases h with
  | enter => exact .inl ⟨rfl, rfl⟩
  | leave => exact .inl ⟨rfl, rfl⟩
  | skip => exact .inl ⟨rfl, rfl⟩
  | take => exact .inl ⟨rfl, rfl⟩
  | spent => exact .inl ⟨rfl, rfl⟩
  | refuse _ hbudget => exact .inr ⟨_, _, _, _, rfl, hbudget, rfl, rfl⟩
  | die _ hbudget => exact .inr ⟨_, _, _, _, rfl, hbudget, rfl, rfl⟩
  | pay _ hbudget => exact .inr ⟨_, _, _, _, rfl, hbudget, rfl, rfl⟩

theorem cycle_step (h : Step p q) : p.session.game.cycle ≤ q.session.game.cycle := by
  obtain ⟨-, hcycle⟩ | ⟨i, pid, t, budget, -, hbudget, -, hcycle⟩ := log_step h
  · exact Nat.le_of_eq hcycle.symm
  · rw [hcycle]
    exact Nat.le_of_lt (p.session.game.cycle_lt_charge pid t budget hbudget)

/-- A log without a limit refuses nothing. -/
theorem unlimited_step (hp : p.session.log.capacity = none ∧ p.session.log.refused = false)
    (h : Step p q) : q.session.log.capacity = none ∧ q.session.log.refused = false := by
  obtain ⟨hlog, -⟩ | ⟨i, pid, t, budget, -, -, hlog, -⟩ := log_step h
  · rwa [hlog]
  · have hroom := EventLog.isFull_of_unlimited hp.1
    rw [hlog, EventLog.push, if_neg (by simp [hroom])]
    exact hp

/-! ## What runs keep -/

theorem rules_of_reaches (h : Reaches p q) : q.session.game.rules = p.session.game.rules :=
  invariant (P := fun r => r.session.game.rules = p.session.game.rules)
    (fun _ _ hr hstep => (rules_step hstep).trans hr) rfl h

theorem size_of_reaches (h : Reaches p q) :
    q.session.game.players.size = p.session.game.players.size :=
  invariant (P := fun r => r.session.game.players.size = p.session.game.players.size)
    (fun _ _ hr hstep => (size_step hstep).trans hr) rfl h

theorem cycle_le_of_reaches (h : Reaches p q) :
    p.session.game.cycle ≤ q.session.game.cycle :=
  invariant (P := fun r => p.session.game.cycle ≤ r.session.game.cycle)
    (fun _ _ hr hstep => Nat.le_trans hr (cycle_step hstep)) (Nat.le_refl _) h

/-- A thread with a budget is not out of hand before it has been charged. -/
theorem cycle_lt_of_reaches_hand {s : Session} {i : Nat} {pid : UInt8} {t : Thread} {budget : Nat}
    (hbudget : budget ≠ 0) (h : Reaches ⟨s, .hand i pid t budget⟩ q)
    (hq : ∀ i pid t budget, q.stage ≠ .hand i pid t budget) :
    s.game.cycle < q.session.game.cycle := by
  have hcharge := s.game.cycle_lt_charge pid t budget hbudget
  obtain hsame | ⟨r, hstep, hrest⟩ := h.cases_head
  · exact absurd (congrArg stage hsame.symm) (hq i pid t budget)
  · have hle := cycle_le_of_reaches hrest
    cases hstep with
    | spent => exact absurd rfl hbudget
    | refuse => exact Nat.lt_of_lt_of_le hcharge hle
    | die => exact Nat.lt_of_lt_of_le hcharge hle
    | pay => exact Nat.lt_of_lt_of_le hcharge hle

end Steps

end Point
end CoreWar
