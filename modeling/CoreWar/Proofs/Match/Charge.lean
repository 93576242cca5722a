import CoreWar.Match.Game
import CoreWar.Proofs.Machine.Debt

/-!
# What one charge and one death do to a match

A charge moves cycles from the budget to the count and touches no player; a death
takes nothing but credits and, with the last thread, one of those alive.  The
lemmas here say so for each change of a game, so that later proofs need not look
into the changes themselves.

What a player plays with, `Player.unscored`, is separate from its results: credits
change only the latter.
-/

namespace CoreWar

/-- A player with its results struck out. -/
def Player.unscored (p : Player) : Player :=
  { p with killedThreads := 0, killedProcesses := 0, ownedCells := 0, score := 0 }

/-- What is owed is less than any bound on the costs and on the debt. -/
theorem CostTable.owed_lt {costs : CostTable} (m : Arena) {t : Thread} {bound : Nat}
    (hcost : ∀ op, costs.cost op < bound) (hdebt : t.debt < bound) :
    costs.owed m t < bound := by
  unfold owed
  split
  · exact hcost _
  · exact hdebt

namespace Game

/-- The number of players with a thread. -/
def living (g : Game) : Nat := g.players.countP Player.isAlive

/-- The cycles that players can take in a turn each. -/
def reserveOf (cyclesPerTurn : Nat) (players : List Player) : Nat :=
  players.foldr
    (fun p total => (if p.isAlive then p.turnBudget cyclesPerTurn else 0) + total) 0

/-! ## Charges -/

/-- A charge has one of three outcomes: the budget does not pay for the
instruction, or it does and the instruction succeeds or fails. -/
theorem charge_cases (g : Game) (pid : UInt8) (t : Thread) (budget : Nat) :
    (budget < g.rules.costs.owed g.arena t ∧
      g.charge pid t budget =
        ⟨{ g with cycle := g.cycle + budget },
          { t with debt := g.rules.costs.owed g.arena t - budget }, 0,
          .exec g.cycle pid t.ip none, none⟩) ∨
    (g.rules.costs.owed g.arena t ≤ budget ∧ ∃ m i,
      (Machine.mk { t with debt := 0 } g.arena pid).step = ⟨m, .ok i⟩ ∧
      g.charge pid t budget =
        ⟨{ g with arena := m.arena, cycle := g.cycle + g.rules.costs.owed g.arena t },
          m.thread, budget - g.rules.costs.owed g.arena t,
          .exec g.cycle pid t.ip (some (g.cycle + g.rules.costs.owed g.arena t)), none⟩) ∨
    (g.rules.costs.owed g.arena t ≤ budget ∧ ∃ m fault,
      (Machine.mk { t with debt := 0 } g.arena pid).step = ⟨m, .error fault⟩ ∧
      g.charge pid t budget =
        ⟨{ g with arena := m.arena, cycle := g.cycle + g.rules.costs.owed g.arena t },
          m.thread, budget - g.rules.costs.owed g.arena t,
          .exec g.cycle pid t.ip none, some fault⟩) := by
  unfold charge
  dsimp only
  split
  next hlt => exact .inl ⟨hlt, rfl⟩
  next hlt =>
    have hle : g.rules.costs.owed g.arena t ≤ budget := Nat.le_of_not_lt hlt
    cases hstep : (Machine.mk { t with debt := 0 } g.arena pid).step with
    | mk m result =>
        cases result with
        | ok i => exact .inr (.inl ⟨hle, m, i, rfl, rfl⟩)
        | error fault => exact .inr (.inr ⟨hle, m, fault, rfl, rfl⟩)

section Outcomes

variable {g : Game} {pid : UInt8} {t : Thread} {budget : Nat}

theorem charge_of_lt (h : budget < g.rules.costs.owed g.arena t) :
    g.charge pid t budget =
      ⟨{ g with cycle := g.cycle + budget },
        { t with debt := g.rules.costs.owed g.arena t - budget }, 0,
        .exec g.cycle pid t.ip none, none⟩ := by
  obtain ⟨-, hcharge⟩ | ⟨hle, -⟩ | ⟨hle, -⟩ := g.charge_cases pid t budget
  · exact hcharge
  · exact absurd hle (Nat.not_le_of_lt h)
  · exact absurd hle (Nat.not_le_of_lt h)

/-- What comes of a charge that the budget pays for is what comes of the step. -/
theorem charge_of_le (h : g.rules.costs.owed g.arena t ≤ budget) {o : Outcome Instruction}
    (hstep : (Machine.mk { t with debt := 0 } g.arena pid).step = o) :
    g.charge pid t budget =
      ⟨{ g with
          arena := o.machine.arena
          cycle := g.cycle + g.rules.costs.owed g.arena t },
        o.machine.thread, budget - g.rules.costs.owed g.arena t,
        .exec g.cycle pid t.ip
          (o.result.toOption.map fun _ => g.cycle + g.rules.costs.owed g.arena t),
        match o.result with
        | .ok _ => none
        | .error fault => some fault⟩ := by
  obtain ⟨hlt, -⟩ | ⟨-, m, i, hok, hcharge⟩ | ⟨-, m, fault, herror, hcharge⟩ :=
    g.charge_cases pid t budget
  · exact absurd h (Nat.not_le_of_lt hlt)
  · obtain rfl : _ = o := hok.symm.trans hstep
    exact hcharge
  · obtain rfl : _ = o := herror.symm.trans hstep
    exact hcharge

end Outcomes

variable (g : Game) (pid : UInt8) (t : Thread) (budget : Nat)

@[simp] theorem players_charge : (g.charge pid t budget).game.players = g.players := by
  obtain ⟨-, h⟩ | ⟨-, m, i, -, h⟩ | ⟨-, m, fault, -, h⟩ := g.charge_cases pid t budget <;> rw [h]

@[simp] theorem alive_charge : (g.charge pid t budget).game.alive = g.alive := by
  obtain ⟨-, h⟩ | ⟨-, m, i, -, h⟩ | ⟨-, m, fault, -, h⟩ := g.charge_cases pid t budget <;> rw [h]

@[simp] theorem finished_charge : (g.charge pid t budget).game.finished = g.finished := by
  obtain ⟨-, h⟩ | ⟨-, m, i, -, h⟩ | ⟨-, m, fault, -, h⟩ := g.charge_cases pid t budget <;> rw [h]

/-- The cycles that a charge counts are those that the budget loses. -/
theorem cycle_charge_add_budget :
    (g.charge pid t budget).game.cycle + (g.charge pid t budget).budget = g.cycle + budget := by
  obtain ⟨-, h⟩ | ⟨hle, m, i, -, h⟩ | ⟨hle, m, fault, -, h⟩ := g.charge_cases pid t budget
  · rw [h]
    rfl
  · rw [h]
    dsimp only
    omega
  · rw [h]
    dsimp only
    omega

/-- A charge to a budget that is not spent takes at least one cycle. -/
theorem cycle_lt_charge (h : budget ≠ 0) : g.cycle < (g.charge pid t budget).game.cycle := by
  have hsum := g.cycle_charge_add_budget pid t budget
  have hlt := g.budget_charge_lt pid t h
  omega

/-- The event of a charge tells when it began and, if the instruction was
executed and did not fail, when it ended. -/
theorem event_charge : ∃ end?, (g.charge pid t budget).event = .exec g.cycle pid t.ip end? ∧
    ∀ e ∈ end?, e = (g.charge pid t budget).game.cycle := by
  obtain ⟨-, h⟩ | ⟨-, m, i, -, h⟩ | ⟨-, m, fault, -, h⟩ := g.charge_cases pid t budget
  · exact ⟨none, by rw [h], by simp⟩
  · exact ⟨some (g.cycle + g.rules.costs.owed g.arena t), by rw [h], by simp [h]⟩
  · exact ⟨none, by rw [h], by simp⟩

/-- What a thread owes after a charge is less than any bound on the costs and on
what it owed before. -/
theorem debt_charge_lt {bound : Nat} (hcost : ∀ op, g.rules.costs.cost op < bound)
    (hdebt : t.debt < bound) : (g.charge pid t budget).thread.debt < bound := by
  have howed := CostTable.owed_lt g.arena hcost hdebt
  obtain ⟨-, h⟩ | ⟨-, m, i, hstep, h⟩ | ⟨-, m, fault, hstep, h⟩ := g.charge_cases pid t budget
  · rw [h]
    dsimp only
    omega
  · have hkeep := Machine.debt_step ⟨{ t with debt := 0 }, g.arena, pid⟩
    rw [hstep] at hkeep
    rw [h]
    dsimp only at hkeep ⊢
    omega
  · have hkeep := Machine.debt_step ⟨{ t with debt := 0 }, g.arena, pid⟩
    rw [hstep] at hkeep
    rw [h]
    dsimp only at hkeep ⊢
    omega

/-! ## Players in an array -/

section Arrays

variable {α β : Type}

theorem modify_eq_setIfInBounds {xs : Array α} {i : Nat} {a : α} (f : α → α)
    (h : xs[i]? = some a) : xs.modify i f = xs.setIfInBounds i (f a) := by
  apply Array.ext_getElem?
  intro j
  rw [Array.getElem?_modify, Array.getElem?_setIfInBounds]
  by_cases hij : i = j
  · subst hij
    obtain ⟨hlt, rfl⟩ := Array.getElem?_eq_some_iff.mp h
    simp [hlt]
  · simp [hij]

theorem map_modify {xs : Array α} {i : Nat} {f : α → α} {f' : β → β} {k : α → β}
    (h : ∀ a, k (f a) = f' (k a)) : (xs.modify i f).map k = (xs.map k).modify i f' := by
  apply Array.ext_getElem?
  intro j
  rw [Array.getElem?_map, Array.getElem?_modify, Array.getElem?_modify, Array.getElem?_map]
  by_cases hij : i = j
  · cases xs[j]? <;> simp [hij, h]
  · rw [if_neg hij, if_neg hij]

theorem map_modify_eq_map {xs : Array α} {i : Nat} {f : α → α} {k : α → β}
    (h : ∀ a, k (f a) = k a) : (xs.modify i f).map k = xs.map k := by
  have hmodify : (xs.modify i f).map k = (xs.map k).modify i id := map_modify h
  rw [hmodify]
  apply Array.ext_getElem?
  intro j
  simp [Array.getElem?_modify]

/-- What can be told from how the items of an array look is the same for arrays that
look the same. -/
theorem eq_of_map_eq {F : Array α → β} {k : α → α} (hF : ∀ zs, F zs = F (zs.map k))
    {xs ys : Array α} (h : xs.map k = ys.map k) : F xs = F ys := by
  rw [hF xs, h, ← hF ys]

/-- Arrays that look the same in some way have items that look the same at every index. -/
theorem exists_getElem?_of_map_eq {k : α → β} {xs ys : Array α} (h : xs.map k = ys.map k)
    {i : Nat} {a : α} (ha : xs[i]? = some a) : ∃ b, ys[i]? = some b ∧ k b = k a := by
  have hi := congrArg (·[i]?) h
  simp only [Array.getElem?_map, ha, Option.map_some] at hi
  exact Option.map_eq_some_iff.mp hi.symm

/-- Replacing one item changes a count by the items that leave and enter. -/
theorem countP_setIfInBounds {xs : Array α} {p : α → Bool} {i : Nat} {a : α} (b : α)
    (h : xs[i]? = some a) :
    (xs.setIfInBounds i b).countP p + (p a).toNat = xs.countP p + (p b).toNat := by
  obtain ⟨hlt, rfl⟩ := Array.getElem?_eq_some_iff.mp h
  have hle := Array.boole_getElem_le_countP (p := p) hlt
  rw [Array.setIfInBounds, dif_pos hlt, Array.countP_set hlt]
  cases hp : p xs[i] <;> cases hb : p b <;>
    simp only [hp, Bool.toNat_true, Bool.toNat_false, Bool.false_eq_true, ↓reduceIte] at hle ⊢ <;>
    omega

end Arrays

/-! ## Credits -/

/-- Credits change nothing that a player plays with. -/
theorem map_unscored_credit (rules : Rules) (players : Array Player) (cause victim : UInt8)
    (isLast : Bool) :
    (credit rules players cause victim isLast).map Player.unscored =
      players.map Player.unscored := by
  unfold credit
  split
  · rfl
  · apply map_modify_eq_map
    intro p
    dsimp only
    split <;> rfl

theorem map_unscored_kill (index : Nat) :
    (g.kill index pid t).players.map Player.unscored = g.players.map Player.unscored :=
  map_unscored_credit _ _ _ _ _

theorem map_unscored_finish : g.finish.players.map Player.unscored
    = g.players.map Player.unscored := by
  unfold finish
  dsimp only
  split
  · rfl
  · dsimp only
    rw [Array.map_map]
    rfl

/-- Whether players live is seen without their results. -/
theorem countP_isAlive_eq {xs ys : Array Player}
    (h : xs.map Player.unscored = ys.map Player.unscored) :
    xs.countP Player.isAlive = ys.countP Player.isAlive := by
  apply eq_of_map_eq _ h
  intro zs
  rw [Array.countP_map]
  rfl

/-! ## Reserves -/

theorem reserve_eq : g.reserve = reserveOf g.rules.cyclesPerTurn g.players.toList := by
  have hfold (ps : List Player) (n : Nat) :
      ps.foldl (fun total p =>
        if p.isAlive then total + p.turnBudget g.rules.cyclesPerTurn else total) n =
      n + reserveOf g.rules.cyclesPerTurn ps := by
    induction ps generalizing n with
    | nil => rfl
    | cons p ps ih =>
        rw [List.foldl_cons, ih, reserveOf, reserveOf, List.foldr_cons]
        cases p.isAlive with
        | false => simp
        | true => simp [Nat.add_assoc]
  rw [reserve, ← Array.foldl_toList, hfold, Nat.zero_add]

theorem reserveOf_map_unscored (cyclesPerTurn : Nat) (ps : List Player) :
    reserveOf cyclesPerTurn (ps.map Player.unscored) = reserveOf cyclesPerTurn ps := by
  unfold reserveOf
  rw [List.foldr_map]
  rfl

/-- The player at an index and those behind it. -/
theorem reserveOf_drop {players : Array Player} {i : Nat} {p : Player} (cyclesPerTurn : Nat)
    (h : players[i]? = some p) :
    reserveOf cyclesPerTurn (players.toList.drop i) =
      (if p.isAlive then p.turnBudget cyclesPerTurn else 0) +
        reserveOf cyclesPerTurn (players.toList.drop (i + 1)) := by
  obtain ⟨hlt, rfl⟩ := Array.getElem?_eq_some_iff.mp h
  rw [List.drop_eq_getElem_cons (by simpa using hlt), Array.getElem_toList]
  rfl

/-- Nobody can take cycles if nobody is left. -/
theorem reserveOf_eq_zero {ps : List Player} (h : ∀ p ∈ ps, p.isAlive = false)
    (cyclesPerTurn : Nat) : reserveOf cyclesPerTurn ps = 0 := by
  induction ps with
  | nil => rfl
  | cons p ps ih =>
      rw [List.forall_mem_cons] at h
      rw [reserveOf, List.foldr_cons, ← reserveOf, ih h.2, h.1, if_neg (by decide)]

theorem reserve_eq_zero (h : g.living = 0) : g.reserve = 0 := by
  rw [reserve_eq]
  apply reserveOf_eq_zero
  intro p hp
  exact eq_false_of_ne_true (Array.countP_eq_zero.mp h p (Array.mem_toList_iff.mp hp))

/-- A turn cannot be longer than thirty-two bits. -/
theorem turnBudget_lt (p : Player) (cyclesPerTurn : Nat) :
    p.turnBudget cyclesPerTurn < UInt32.size := by
  have h := (Float.ofNat cyclesPerTurn * p.settings.modifier).toUInt32.toNat_lt_size
  have hsize : UInt32.size = 4294967296 := rfl
  unfold Player.turnBudget
  omega

theorem reserveOf_le (cyclesPerTurn : Nat) (ps : List Player) :
    reserveOf cyclesPerTurn ps ≤ ps.length * UInt32.size := by
  induction ps with
  | nil => exact Nat.zero_le _
  | cons p ps ih =>
      have hlt := turnBudget_lt p cyclesPerTurn
      rw [reserveOf, List.foldr_cons, ← reserveOf, List.length_cons, Nat.succ_mul]
      split <;> omega

end Game
end CoreWar
