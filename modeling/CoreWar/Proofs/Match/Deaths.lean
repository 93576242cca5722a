import CoreWar.Proofs.Machine.Faults
import CoreWar.Proofs.Match.Tally

/-!
# Deaths and what they are worth

A thread that fails leaves the arena and its own registers as they were.  So whoever
owns the cell that it stands at owned it right before the failing step, and a death can
be told from the point before it (`Point.death?`).

`Course` is a run of a match with the deaths on it.  All along such a run the account
of a player is what these deaths are worth to it (`settled_of_course`): a death counts
for the owner of the cell, but not if that is the victim, and it counts once more if it
is the victim's last.  Since no player gets a second thread, there are no more deaths
than players.
-/

namespace CoreWar

/-- The death of a thread. -/
structure Death where
  /-- The player whose thread it was. -/
  victim : UInt8
  /-- The owner of the cell that the thread stood at. -/
  owner : UInt8
  /-- Whether the player was left without a thread. -/
  isLast : Bool
  deriving DecidableEq, Repr

/-- A death counts for the owner of the cell unless that is the victim. -/
def Death.countsFor (d : Death) (pid : UInt8) : Bool := d.owner == pid && d.victim != pid

/-! ## Accounts -/

namespace Player

/-- A player without its threads. -/
def idle (p : Player) : Player := { p with queue := [] }

/-- The account of a player is what deaths are worth to it. -/
structure Credited (rules : Rules) (deaths : List Death) (p : Player) : Prop where
  killedThreads_eq : p.killedThreads = deaths.countP fun d => d.countsFor p.pid
  killedProcesses_eq :
    p.killedProcesses = deaths.countP fun d => d.countsFor p.pid && d.isLast
  ownedCells_eq : p.ownedCells = 0
  score_eq : p.score =
    p.killedThreads * rules.threadScore + p.killedProcesses * rules.processScore

variable {rules : Rules} {deaths : List Death} {d : Death} {p : Player}

theorem Credited.of_idle_eq {q : Player} (h : p.Credited rules deaths) (hq : q.idle = p.idle) :
    q.Credited rules deaths := by
  obtain ⟨pid, settings, queue, threads, processes, cells, score⟩ := p
  obtain ⟨pid', settings', queue', threads', processes', cells', score'⟩ := q
  cases hq
  exact ⟨h.killedThreads_eq, h.killedProcesses_eq, h.ownedCells_eq, h.score_eq⟩

theorem Credited.append_of_not_countsFor (h : p.Credited rules deaths)
    (hd : d.countsFor p.pid = false) : p.Credited rules (deaths ++ [d]) := by
  constructor
  · rw [List.countP_append, List.countP_singleton, hd, h.killedThreads_eq]
    rfl
  · rw [List.countP_append, List.countP_singleton, hd, h.killedProcesses_eq]
    rfl
  · exact h.ownedCells_eq
  · exact h.score_eq

theorem Credited.append_of_countsFor (h : p.Credited rules deaths)
    (hd : d.countsFor p.pid = true) :
    Player.Credited rules (deaths ++ [d])
      (if d.isLast then (p.creditThread rules.threadScore).creditProcess rules.processScore
        else p.creditThread rules.threadScore) := by
  have hscore := h.score_eq
  have hthreads : p.killedThreads + 1 = (deaths ++ [d]).countP fun x => x.countsFor p.pid := by
    rw [List.countP_append, List.countP_singleton, hd, h.killedThreads_eq]
    rfl
  have hprocesses : p.killedProcesses + d.isLast.toNat =
      (deaths ++ [d]).countP fun x => x.countsFor p.pid && x.isLast := by
    rw [List.countP_append, List.countP_singleton, hd, h.killedProcesses_eq]
    cases d.isLast <;> rfl
  cases hlast : d.isLast with
  | false =>
      rw [hlast] at hprocesses
      refine ⟨hthreads, hprocesses, h.ownedCells_eq, ?_⟩
      change p.score + rules.threadScore =
        (p.killedThreads + 1) * rules.threadScore + p.killedProcesses * rules.processScore
      rw [Nat.succ_mul]
      omega
  | true =>
      rw [hlast] at hprocesses
      refine ⟨hthreads, hprocesses, h.ownedCells_eq, ?_⟩
      change p.score + rules.threadScore + rules.processScore =
        (p.killedThreads + 1) * rules.threadScore + (p.killedProcesses + 1) * rules.processScore
      rw [Nat.succ_mul, Nat.succ_mul]
      omega

end Player

namespace Game

/-- Every player has its number, and the account that deaths are worth to it. -/
def Recorded (rules : Rules) (deaths : List Death) (players : Array Player) : Prop :=
  ∀ (i : Nat) (p : Player), players[i]? = some p →
    p.pid.toNat = i + 1 ∧ p.Credited rules deaths

variable {rules : Rules} {deaths : List Death} {d : Death} {players : Array Player}

theorem Recorded.of_map_idle_eq {players' : Array Player} (h : Recorded rules deaths players)
    (hsame : players'.map Player.idle = players.map Player.idle) :
    Recorded rules deaths players' := by
  intro i p hp
  obtain ⟨q, hq, hqp⟩ := exists_getElem?_of_map_eq hsame hp
  obtain ⟨hpid, hcredited⟩ := h i q hq
  have hpids := congrArg Player.pid hqp
  change q.pid = p.pid at hpids
  exact ⟨hpids ▸ hpid, hcredited.of_idle_eq hqp.symm⟩

/-- A death on a cell of nobody, of the victim or of somebody who does not play. -/
def Unpaid (players : Array Player) (d : Death) : Prop :=
  d.owner = 0 ∨ d.owner = d.victim ∨ players.size < d.owner.toNat

theorem Unpaid.credit_eq (h : Unpaid players d) :
    credit rules players d.owner d.victim d.isLast = players := by
  unfold credit
  split
  · rfl
  next hpaid =>
    obtain hzero | hown | hsize := h
    · exact absurd (.inl hzero) hpaid
    · exact absurd (.inr hown) hpaid
    · apply Array.ext_getElem?
      intro i
      rw [Array.getElem?_modify]
      split
      next hi =>
        rw [Array.getElem?_eq_none (by omega)]
        rfl
      · rfl

/-- A death is credited to the player it counts for and to no other. -/
theorem Recorded.credit (h : Recorded rules deaths players) (d : Death) :
    Recorded rules (deaths ++ [d]) (credit rules players d.owner d.victim d.isLast) := by
  intro i p hp
  unfold Game.credit at hp
  split at hp
  next hnobody =>
    obtain ⟨hpid, hcredited⟩ := h i p hp
    refine ⟨hpid, hcredited.append_of_not_countsFor ?_⟩
    unfold Death.countsFor
    obtain hzero | hown := hnobody
    · -- No player has the number zero.
      have hne : d.owner ≠ p.pid := by
        intro heq
        rw [← heq, hzero] at hpid
        cases hpid
      simp [hne]
    · simp [hown]
  next hpaid =>
    rw [not_or] at hpaid
    rw [Array.getElem?_modify] at hp
    have hpos : d.owner.toNat ≠ 0 := fun hzero => hpaid.1 (UInt8.toNat_inj.mp hzero)
    split at hp
    next hi =>
      obtain ⟨q, hq, rfl⟩ := Option.map_eq_some_iff.mp hp
      obtain ⟨hpid, hcredited⟩ := h i q hq
      have howner : d.owner = q.pid := UInt8.toNat_inj.mp (by omega)
      have hvictim : d.victim ≠ q.pid := fun heq => hpaid.2 (howner.trans heq.symm)
      have hcounts : d.countsFor q.pid = true := by simp [Death.countsFor, howner, hvictim]
      have hnew := hcredited.append_of_countsFor hcounts
      refine ⟨?_, hnew⟩
      dsimp only
      split <;> exact hpid
    next hi =>
      obtain ⟨hpid, hcredited⟩ := h i p hp
      have howner : d.owner ≠ p.pid := by
        intro heq
        rw [← heq] at hpid
        omega
      exact ⟨hpid, hcredited.append_of_not_countsFor (by simp [Death.countsFor, howner])⟩

end Game

/-! ## Deaths on a run -/

namespace Point

open Game

/-- The death that the next step is: the budget in hand pays for the instruction, and
the instruction fails. -/
def death? : Point → Option Death
  | ⟨⟨g, _⟩, .hand i pid t budget⟩ =>
    if g.rules.costs.owed g.arena t ≤ budget then
      match (Machine.mk { t with debt := 0 } g.arena pid).step.result with
      | .ok _ => none
      | .error _ => some ⟨pid, g.arena.owner t.ip, !(g.players[i]?.any Player.isAlive)⟩
    else
      none
  | _ => none

/-- What steps lead to, with the deaths on the way. -/
inductive Course : Point → List Death → Point → Prop
  | refl (p : Point) : Course p [] p
  | head {p q r : Point} {deaths : List Death} (hstep : Step p q) (h : Course q deaths r) :
      Course p (p.death?.toList ++ deaths) r

variable {p q r : Point} {deaths deaths' : List Death}

theorem exists_course_of_reaches (h : Reaches p q) : ∃ deaths, Course p deaths q := by
  induction h using Relation.ReflTransGen.head_induction_on with
  | refl => exact ⟨[], .refl q⟩
  | head hstep _ ih =>
      obtain ⟨deaths, hcourse⟩ := ih
      exact ⟨_, .head hstep hcourse⟩

/-- The end of a match and the deaths on the way are determined. -/
theorem Course.unique (h : Course p deaths q) (hq : q.IsFinal) (h' : Course p deaths' r)
    (hr : r.IsFinal) : deaths' = deaths ∧ r = q := by
  induction h generalizing deaths' with
  | refl p =>
      cases h' with
      | refl => exact ⟨rfl, rfl⟩
      | head hstep _ => exact absurd hstep (hq _)
  | head hstep _ ih =>
      cases h' with
      | refl => exact absurd hstep (hr _)
      | head hstep' h' =>
          obtain rfl := step_unique hstep hstep'
          obtain ⟨rfl, rfl⟩ := ih hq h'
          exact ⟨rfl, rfl⟩

/-- Whether the thread in hand dies is seen from what comes of charging it. -/
theorem death?_hand (g : Game) (log : EventLog) (i : Nat) (pid : UInt8) (t : Thread)
    (budget : Nat) :
    death? ⟨⟨g, log⟩, .hand i pid t budget⟩ =
      if (g.charge pid t budget).fault?.isSome then
        some ⟨pid, g.arena.owner t.ip, !(g.players[i]?.any Player.isAlive)⟩
      else
        none := by
  obtain ⟨hlt, h⟩ | ⟨hle, m, k, hstep, h⟩ | ⟨hle, m, fault, hstep, h⟩ :=
    g.charge_cases pid t budget
  · simp [death?, h, Nat.not_le_of_lt hlt]
  · simp [death?, h, hle, hstep]
  · simp [death?, h, hle, hstep]

/-- A charge that ends in a fault leaves the arena and the instruction pointer as they
were. -/
theorem owner_charge {g : Game} {pid : UInt8} {t : Thread} {budget : Nat}
    (hfault : (g.charge pid t budget).fault?.isSome = true) :
    (g.charge pid t budget).game.arena.owner (g.charge pid t budget).thread.ip
      = g.arena.owner t.ip := by
  obtain ⟨-, h⟩ | ⟨-, m, i, -, h⟩ | ⟨-, m, fault, hstep, h⟩ := g.charge_cases pid t budget
  · simp [h] at hfault
  · simp [h] at hfault
  · obtain ⟨rfl, -⟩ := Machine.step_eq_error_iff.mp hstep
    rw [h]

/-- A step that the log records either is no death and leaves all accounts alone, or it
is a death and credits it. -/
theorem accounts_step (h : Step p q) (hopen : q.session.log.refused = false) :
    (p.death? = none ∧ q.session.game.alive = p.session.game.alive ∧
        q.session.game.players.map Player.idle = p.session.game.players.map Player.idle) ∨
      ∃ d, p.death? = some d ∧
        q.session.game.alive =
          (if d.isLast then p.session.game.alive - 1 else p.session.game.alive) ∧
        q.session.game.players =
          Game.credit p.session.game.rules p.session.game.players d.owner d.victim d.isLast := by
  cases h with
  | enter => exact .inl ⟨rfl, rfl, rfl⟩
  | leave => exact .inl ⟨rfl, rfl, rfl⟩
  | skip => exact .inl ⟨rfl, rfl, rfl⟩
  | @take s i t p hlog hi hnext =>
      obtain ⟨q, hq, hqueue, hp⟩ := Game.next?_eq_some_iff.mp hnext
      refine .inl ⟨rfl, rfl, ?_⟩
      change (s.game.players.setIfInBounds i p).map Player.idle = s.game.players.map Player.idle
      rw [hp, ← Game.modify_eq_setIfInBounds (fun q => { q with queue := p.queue }) hq]
      exact Game.map_modify_eq_map fun _ => rfl
  | @spent s i pid t hlog =>
      have howed := s.game.rules.costs.owed_pos s.game.arena t
      refine .inl ⟨if_neg (Nat.not_le_of_lt howed), rfl, ?_⟩
      change (s.game.players.modify i (·.requeue t)).map Player.idle = _
      exact Game.map_modify_eq_map fun _ => rfl
  | refuse _ _ hpush => simp [hpush] at hopen
  | @die s i pid t budget hlog hbudget hpush hfault =>
      refine .inr ⟨_, (death?_hand _ _ _ _ _ _).trans (if_pos hfault), ?_, ?_⟩
      · rw [← s.game.alive_charge pid t budget, ← s.game.players_charge pid t budget]
        rfl
      · change Game.credit _ _ _ _ _ = _
        rw [owner_charge hfault, Game.players_charge, Game.rules_charge]
  | @pay s i pid t budget hlog hbudget hpush hfault =>
      refine .inl ⟨?_, ?_, ?_⟩
      · exact (death?_hand _ _ _ _ _ _).trans (if_neg (by simp [hfault]))
      · exact Game.alive_charge _ _ _ _
      · exact congrArg (Array.map Player.idle) (Game.players_charge _ _ _ _)

/-- What holds on a run of a match whose log takes every event: all accounts are in
order, and every death leaves one player less. -/
structure Settled (n : Nat) (deaths : List Death) (p : Point) : Prop where
  unlimited : p.session.log.capacity = none ∧ p.session.log.refused = false
  running : p.session.game.finished = false
  size : p.session.game.players.size = n
  tallied : Tallied 0 p
  recorded : Recorded p.session.game.rules deaths p.session.game.players
  length_add_alive : deaths.length + p.session.game.alive = n
  victims : ∀ d ∈ deaths, 1 ≤ d.victim.toNat ∧ d.victim.toNat ≤ n
  hand : ∀ i pid t budget, p.stage = .hand i pid t budget → pid.toNat = i + 1 ∧ i < n

theorem finished_step (h : Step p q) :
    q.session.game.finished = p.session.game.finished := by
  cases h with
  | enter => rfl
  | leave => rfl
  | skip => rfl
  | take => rfl
  | spent => rfl
  | refuse => exact Game.finished_charge _ _ _ _
  | die => exact Game.finished_charge _ _ _ _
  | pay => exact Game.finished_charge _ _ _ _

/-- A thread in hand is held under the number of its player. -/
theorem Settled.hand_step {n : Nat} (hp : Settled n deaths p) (h : Step p q) :
    ∀ i pid t budget, q.stage = .hand i pid t budget → pid.toNat = i + 1 ∧ i < n := by
  cases h with
  | enter => simp
  | leave => simp
  | skip => simp
  | @take s i t p hlog hi hnext =>
      rintro _ _ _ _ ⟨⟩
      obtain ⟨q, hq, -, hp'⟩ := Game.next?_eq_some_iff.mp hnext
      have hpid := congrArg Player.pid hp'
      change p.pid = q.pid at hpid
      exact ⟨hpid ▸ (hp.recorded i q hq).1, hp.size ▸ hi⟩
  | spent => simp
  | refuse => simp
  | die => simp
  | pay =>
      rintro _ _ _ _ ⟨⟩
      exact hp.hand _ _ _ _ rfl

/-- The thread in hand is the only one of its player, which still counts as alive. -/
theorem Settled.of_death? {n : Nat} {d : Death} (hp : Settled n deaths p)
    (hd : p.death? = some d) :
    d.isLast = true ∧ 0 < p.session.game.alive ∧ 1 ≤ d.victim.toNat ∧ d.victim.toNat ≤ n := by
  obtain ⟨⟨g, log⟩, stage⟩ := p
  cases stage with
  | round => simp [death?] at hd
  | turn i => simp [death?] at hd
  | hand i pid t budget =>
      rw [death?_hand] at hd
      split at hd
      · cases hd
        obtain ⟨-, ⟨p, hpi, hnil⟩, halive⟩ := hp.tallied
        obtain ⟨hpid, hi⟩ := hp.hand i pid t budget rfl
        refine ⟨?_, ?_, ?_, ?_⟩
        · simp [hpi, Player.isAlive, hnil]
        · exact halive ▸ Nat.succ_pos _
        · exact hpid ▸ Nat.succ_pos _
        · exact hpid ▸ hi
      · cases hd

theorem settled_step {n : Nat} (hp : Settled n deaths p) (h : Step p q) :
    Settled n (deaths ++ p.death?.toList) q := by
  have hunlimited := unlimited_step hp.unlimited h
  have hrules := rules_step h
  have htallied : Tallied 0 q := by
    obtain ⟨-, htallied⟩ | ⟨hrefused, -⟩ := tallied_step hp.tallied h
    · exact htallied
    · simp [hunlimited.2] at hrefused
  have hrunning := (finished_step h).trans hp.running
  have hsize := (size_step h).trans hp.size
  obtain ⟨hnone, halive, hsame⟩ | ⟨d, hd, halive, hcredit⟩ := accounts_step h hunlimited.2
  · rw [hnone, Option.toList_none, List.append_nil]
    exact
      { unlimited := hunlimited
        running := hrunning
        size := hsize
        tallied := htallied
        recorded := hrules ▸ hp.recorded.of_map_idle_eq hsame
        length_add_alive := halive ▸ hp.length_add_alive
        victims := hp.victims
        hand := hp.hand_step h }
  · obtain ⟨hlast, hpos, hvictim⟩ := hp.of_death? hd
    rw [hd, Option.toList_some]
    exact
      { unlimited := hunlimited
        running := hrunning
        size := hsize
        tallied := htallied
        recorded := by
          rw [hcredit, hrules]
          exact hp.recorded.credit d
        length_add_alive := by
          have hlength := hp.length_add_alive
          rw [halive, hlast, if_pos rfl, List.length_append, List.length_singleton]
          omega
        victims := by
          intro x hx
          obtain hx | hx := List.mem_append.mp hx
          · exact hp.victims x hx
          · rw [List.mem_singleton.mp hx]
            exact hvictim
        hand := hp.hand_step h }

theorem settled_of_course {n : Nat} (hp : Settled n deaths p) (h : Course p deaths' q) :
    Settled n (deaths ++ deaths') q := by
  induction h generalizing deaths with
  | refl => rwa [List.append_nil]
  | head hstep _ ih =>
      rw [← List.append_assoc]
      exact ih (settled_step hp hstep)

/-- A death that counts for nobody changes no player. -/
theorem players_step_of_unpaid {d : Death} (h : Step p q) (hopen : q.session.log.refused = false)
    (hd : p.death? = some d) (hunpaid : Unpaid p.session.game.players d) :
    q.session.game.players = p.session.game.players := by
  obtain ⟨hnone, -⟩ | ⟨d', hd', -, hcredit⟩ := accounts_step h hopen
  · rw [hd] at hnone
    cases hnone
  · rw [hd] at hd'
    cases hd'
    rw [hcredit, hunpaid.credit_eq]

end Point
end CoreWar
