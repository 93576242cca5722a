import CoreWar.Proofs.Machine.Likeness
import CoreWar.Proofs.Match.Settlement

/-!
# Scoring only watches

Owners, points, names and the cap on threads are for the results.  No decision of a
match looks at them: of two games that differ in nothing else, one follows the other
step by step, both logs tell the same, and both matches end alike (`play_alike`).

What a match does look at are the bytes of the arena, the costs, the numbers of cycles,
and of every player the number, the modifier and the threads (`Player.bare`).  Games that
have these in common are `Game.Alike`, and each change of a game keeps them alike.
-/

namespace CoreWar

/-- Cells with the same byte, whoever owns them. -/
def Likeness.bytes : Likeness where
  distance := 0
  InUse _ := True
  Alike _ c d := d.byte = c.byte
  alike_refl _ _ := rfl
  byte_eq _ h := h

/-- A step looks at no owner. -/
theorem Machine.step_of_byte_eq {A B : Arena} (h : ∀ a, B.byte a = A.byte a) (t : Thread)
    (pid : UInt8) :
    (Machine.mk t B pid).step.result = (Machine.mk t A pid).step.result ∧
      (Machine.mk t B pid).step.machine.thread = (Machine.mk t A pid).step.machine.thread ∧
      ∀ a, (Machine.mk t B pid).step.machine.arena.byte a =
        (Machine.mk t A pid).step.machine.arena.byte a := by
  have hrelates : Likeness.bytes.Relates ⟨t, A, pid⟩ ⟨t, B, pid⟩ :=
    (Likeness.relates_iff_of_distance_eq_zero rfl).mpr ⟨rfl, rfl, h⟩
  have hmatches : Likeness.bytes.Matches (Machine.mk t A pid).step (Machine.mk t B pid).step := by
    apply hrelates.matches_step
    · intro x _
      trivial
    · exact .inl rfl
  obtain ⟨hthread, -, hbyte⟩ :=
    (Likeness.relates_iff_of_distance_eq_zero rfl).mp hmatches.machine
  exact ⟨hmatches.result_eq, hthread, hbyte⟩

/-- What a match looks at of a player. -/
def Player.bare (p : Player) : Player where
  pid := p.pid
  settings := { modifier := p.settings.modifier }
  queue := p.queue

theorem Player.bare_eq_iff {p q : Player} : q.bare = p.bare ↔
    q.pid = p.pid ∧ q.settings.modifier = p.settings.modifier ∧ q.queue = p.queue := by
  constructor
  · intro h
    have hpid := congrArg Player.pid h
    have hmodifier := congrArg (fun x : Player => x.settings.modifier) h
    have hqueue := congrArg Player.queue h
    exact ⟨hpid, hmodifier, hqueue⟩
  · rintro ⟨hpid, hmodifier, hqueue⟩
    rw [bare, hpid, hmodifier, hqueue, bare]

theorem Player.turnBudget_eq_of_bare_eq {p q : Player} (h : q.bare = p.bare) (n : Nat) :
    q.turnBudget n = p.turnBudget n := by
  rw [Player.turnBudget, Player.turnBudget, (Player.bare_eq_iff.mp h).2.1]

namespace Game

/-! ## Games alike -/

/-- Games that a match cannot tell apart. -/
structure Alike (g g' : Game) : Prop where
  cost_eq : ∀ op, g'.rules.costs.cost op = g.rules.costs.cost op
  cyclesPerTurn_eq : g'.rules.cyclesPerTurn = g.rules.cyclesPerTurn
  maxCycles_eq : g'.rules.maxCycles = g.rules.maxCycles
  byte_eq : ∀ a, g'.arena.byte a = g.arena.byte a
  bare_eq : g'.players.map Player.bare = g.players.map Player.bare
  cycle_eq : g'.cycle = g.cycle
  alive_eq : g'.alive = g.alive

variable {g g' : Game}

theorem map_bare_of_map_unscored_eq {xs ys : Array Player}
    (h : xs.map Player.unscored = ys.map Player.unscored) :
    xs.map Player.bare = ys.map Player.bare := by
  apply eq_of_map_eq _ h
  intro zs
  rw [Array.map_map]
  rfl

theorem countP_isAlive_of_map_bare_eq {xs ys : Array Player}
    (h : xs.map Player.bare = ys.map Player.bare) :
    xs.countP Player.isAlive = ys.countP Player.isAlive := by
  apply eq_of_map_eq _ h
  intro zs
  rw [Array.countP_map]
  rfl

theorem reserveOf_of_map_bare_eq {xs ys : Array Player} (n : Nat)
    (h : xs.map Player.bare = ys.map Player.bare) :
    reserveOf n xs.toList = reserveOf n ys.toList := by
  apply eq_of_map_eq _ h
  intro zs
  rw [Array.toList_map, reserveOf, reserveOf, List.foldr_map]
  rfl

theorem Alike.size_eq (h : g.Alike g') : g'.players.size = g.players.size := by
  have hsize := congrArg Array.size h.bare_eq
  rwa [Array.size_map, Array.size_map] at hsize

/-- Players with the same index are seen alike. -/
theorem Alike.getElem? (h : g.Alike g') (i : Nat) :
    (g'.players[i]?).map Player.bare = (g.players[i]?).map Player.bare := by
  rw [← Array.getElem?_map, ← Array.getElem?_map, h.bare_eq]

theorem Alike.living_eq (h : g.Alike g') : g'.living = g.living :=
  countP_isAlive_of_map_bare_eq h.bare_eq

theorem Alike.isOver_eq (h : g.Alike g') : g'.isOver = g.isOver := by
  have hreserve : g'.reserve = g.reserve := by
    rw [reserve_eq, reserve_eq, h.cyclesPerTurn_eq, reserveOf_of_map_bare_eq _ h.bare_eq]
  rw [isOver, isOver, lastStanding, lastStanding, h.size_eq, h.alive_eq, h.maxCycles_eq,
    h.cycle_eq, hreserve]

/-- The same player has its turn, with the same thread. -/
theorem Alike.next? (h : g.Alike g') (i : Nat) :
    (g.next? i = none ∧ g'.next? i = none) ∨
      ∃ t p p', g.next? i = some (t, p) ∧ g'.next? i = some (t, p') ∧ p'.bare = p.bare := by
  have hplayer := h.getElem? i
  unfold Game.next?
  cases hp : g.players[i]? with
  | none =>
      rw [hp] at hplayer
      have hp' : g'.players[i]? = none := Option.map_eq_none_iff.mp hplayer
      rw [hp']
      exact .inl ⟨rfl, rfl⟩
  | some p =>
      rw [hp] at hplayer
      obtain ⟨p', hp', hbare⟩ := Option.map_eq_some_iff.mp hplayer
      obtain ⟨hpid, hmodifier, hqueue⟩ := Player.bare_eq_iff.mp hbare
      rw [hp', Option.bind_some, Option.bind_some, Player.next?, Player.next?, hqueue]
      cases p.queue with
      | nil => exact .inl ⟨rfl, rfl⟩
      | cons t ts =>
          refine .inr ⟨t, { p with queue := ts }, { p' with queue := ts }, rfl, rfl, ?_⟩
          exact Player.bare_eq_iff.mpr ⟨hpid, hmodifier, rfl⟩

/-! ## Changes of a game -/

theorem Alike.setPlayer (h : g.Alike g') (i : Nat) {p p' : Player} (hp : p'.bare = p.bare) :
    (g.setPlayer i p).Alike (g'.setPlayer i p') := by
  refine { h with bare_eq := ?_ }
  change (g'.players.setIfInBounds i p').map Player.bare =
    (g.players.setIfInBounds i p).map Player.bare
  rw [Array.map_setIfInBounds, Array.map_setIfInBounds, h.bare_eq, hp]

theorem Alike.requeue (h : g.Alike g') (i : Nat) (t : Thread) :
    (g.requeue i t).Alike (g'.requeue i t) := by
  have hbare (xs : Array Player) : (xs.modify i (·.requeue t)).map Player.bare =
      (xs.map Player.bare).modify i (·.requeue t) := map_modify fun _ => rfl
  refine { h with bare_eq := ?_ }
  change (g'.players.modify i (·.requeue t)).map Player.bare =
    (g.players.modify i (·.requeue t)).map Player.bare
  rw [hbare, hbare, h.bare_eq]

/-- Whether a death is the last of its player does not depend on who is credited. -/
theorem Alike.kill (h : g.Alike g') (i : Nat) (pid : UInt8) (t : Thread) :
    (g.kill i pid t).Alike (g'.kill i pid t) := by
  have hbare (f : Game) : (f.kill i pid t).players.map Player.bare =
      f.players.map Player.bare := map_bare_of_map_unscored_eq (f.map_unscored_kill pid t i)
  have halive (f : Game) : f.players[i]?.any Player.isAlive =
      (f.players[i]?.map Player.bare).any Player.isAlive := by
    cases f.players[i]? with
    | none => rfl
    | some p => rfl
  refine { h with bare_eq := ?_, alive_eq := ?_ }
  · rw [hbare, hbare, h.bare_eq]
  · unfold Game.kill
    dsimp only
    rw [halive g', h.getElem? i, ← halive g, h.alive_eq]

theorem Alike.finish (h : g.Alike g') : g.finish.Alike g'.finish := by
  obtain ⟨hrules, harena, hcycle, halive⟩ := g.finish_keeps
  obtain ⟨hrules', harena', hcycle', halive'⟩ := g'.finish_keeps
  constructor
  · intro op
    rw [hrules, hrules', h.cost_eq]
  · rw [hrules, hrules', h.cyclesPerTurn_eq]
  · rw [hrules, hrules', h.maxCycles_eq]
  · intro a
    rw [harena, harena', h.byte_eq]
  · rw [map_bare_of_map_unscored_eq g.map_unscored_finish,
      map_bare_of_map_unscored_eq g'.map_unscored_finish, h.bare_eq]
  · rw [hcycle, hcycle', h.cycle_eq]
  · rw [halive, halive', h.alive_eq]

/-! ## Charges -/

theorem Alike.owed_eq (h : g.Alike g') (t : Thread) :
    g'.rules.costs.owed g'.arena t = g.rules.costs.owed g.arena t := by
  unfold CostTable.owed Arena.opcodeAt
  rw [h.byte_eq, h.cost_eq]

end Game

/-- Charges with the same outcome that leave games alike behind. -/
structure Charge.Alike (c c' : Charge) : Prop where
  game : c.game.Alike c'.game
  thread_eq : c'.thread = c.thread
  budget_eq : c'.budget = c.budget
  event_eq : c'.event = c.event
  fault_eq : c'.fault? = c.fault?

theorem Charge.Alike.kill {c c' : Charge} (h : c.Alike c') (i : Nat) (pid : UInt8) :
    (c.game.kill i pid c.thread).Alike (c'.game.kill i pid c'.thread) := by
  rw [h.thread_eq]
  exact h.game.kill i pid c.thread

namespace Game

variable {g g' : Game}

theorem Alike.charge (h : g.Alike g') (pid : UInt8) (t : Thread) (budget : Nat) :
    (g.charge pid t budget).Alike (g'.charge pid t budget) := by
  have howed := h.owed_eq t
  have hcycle := h.cycle_eq
  by_cases hlt : budget < g.rules.costs.owed g.arena t
  · have hlt' : budget < g'.rules.costs.owed g'.arena t := by rwa [howed]
    rw [charge_of_lt hlt, charge_of_lt hlt', howed, hcycle]
    exact ⟨{ h with cycle_eq := rfl }, rfl, rfl, rfl, rfl⟩
  · have hle : g.rules.costs.owed g.arena t ≤ budget := Nat.le_of_not_lt hlt
    have hle' : g'.rules.costs.owed g'.arena t ≤ budget := by rwa [howed]
    obtain ⟨hresult, hthread, hbyte⟩ := Machine.step_of_byte_eq h.byte_eq { t with debt := 0 } pid
    rw [charge_of_le hle rfl, charge_of_le hle' rfl, howed, hcycle, hresult, hthread]
    exact ⟨{ h with byte_eq := hbyte, cycle_eq := rfl }, rfl, rfl, rfl, rfl⟩

end Game

/-! ## Matches alike -/

/-- Sessions with the same log in which the games are alike. -/
structure Session.Alike (s s' : Session) : Prop where
  game : s.game.Alike s'.game
  log_eq : s'.log = s.log

namespace Point

variable {s s' : Session} {stage : Stage} {q : Point}

/-- Of two sessions alike, each does what the other does. -/
theorem alike_step (h : s.Alike s') (hstep : Step ⟨s, stage⟩ q) :
    ∃ r, Step ⟨s', stage⟩ ⟨r, q.stage⟩ ∧ q.session.Alike r := by
  obtain ⟨g', log⟩ := s'
  obtain ⟨hgame, rfl⟩ := h
  cases hstep with
  | enter hlog hover => exact ⟨_, .enter hlog (hgame.isOver_eq.trans hover), hgame, rfl⟩
  | leave hlog hi => exact ⟨_, .leave hlog (hgame.size_eq ▸ hi), hgame, rfl⟩
  | @skip _ i hlog hi hnext =>
      obtain ⟨-, hnext'⟩ | ⟨t, p, p', hsome, -⟩ := hgame.next? i
      · exact ⟨_, .skip hlog (hgame.size_eq ▸ hi) hnext', hgame, rfl⟩
      · rw [hnext] at hsome
        cases hsome
  | @take _ i t p hlog hi hnext =>
      obtain ⟨hnone, -⟩ | ⟨u, p₁, p', hsome, hnext', hbare⟩ := hgame.next? i
      · rw [hnext] at hnone
        cases hnone
      · rw [hnext] at hsome
        cases hsome
        have htake := Step.take (s := ⟨g', s.log⟩) hlog (hgame.size_eq ▸ hi) hnext'
        have hpid := (Player.bare_eq_iff.mp hbare).1
        have hbudget : p'.turnBudget g'.rules.cyclesPerTurn =
            p.turnBudget s.game.rules.cyclesPerTurn := by
          rw [hgame.cyclesPerTurn_eq, Player.turnBudget_eq_of_bare_eq hbare]
        rw [hpid, hbudget] at htake
        exact ⟨_, htake, hgame.setPlayer i hbare, rfl⟩
  | @spent _ i pid t hlog => exact ⟨_, .spent hlog, hgame.requeue i t, rfl⟩
  | @refuse _ i pid t budget hlog hbudget hpush =>
      have hcharge := hgame.charge pid t budget
      have hpushed := congrArg s.log.push hcharge.event_eq
      exact ⟨_, .refuse hlog hbudget (hpushed ▸ hpush), hcharge.game, hpushed⟩
  | @die _ i pid t budget hlog hbudget hpush hdies =>
      have hcharge := hgame.charge pid t budget
      have hpushed := congrArg s.log.push hcharge.event_eq
      have hdies' := hcharge.fault_eq ▸ hdies
      exact ⟨_, .die hlog hbudget (hpushed ▸ hpush) hdies', hcharge.kill i pid, hpushed⟩
  | @pay _ i pid t budget hlog hbudget hpush hlives =>
      have hcharge := hgame.charge pid t budget
      have hpushed := congrArg s.log.push hcharge.event_eq
      have hlives' := hcharge.fault_eq ▸ hlives
      have hpay := Step.pay (s := ⟨g', s.log⟩) (i := i) hlog hbudget (hpushed ▸ hpush) hlives'
      rw [hcharge.thread_eq, hcharge.budget_eq] at hpay
      exact ⟨_, hpay, hcharge.game, hpushed⟩

theorem alike_of_reaches (h : s.Alike s') (hq : Reaches ⟨s, stage⟩ q) :
    ∃ r, Reaches ⟨s', stage⟩ ⟨r, q.stage⟩ ∧ q.session.Alike r := by
  induction hq with
  | refl => exact ⟨s', .refl, h⟩
  | tail _ hstep ih =>
      obtain ⟨r, hr, halike⟩ := ih
      obtain ⟨r', hr', halike'⟩ := alike_step halike hstep
      exact ⟨r', hr.tail hr', halike'⟩

end Point

namespace Game

open Point

variable {g g' : Game}

theorem Alike.outset (h : g.Alike g') (hstarts : g'.starts = g.starts) (hcycle : g.cycle = 0)
    (capacity : Option Nat) :
    (g.outset capacity).session.Alike (g'.outset capacity).session := by
  have hcycle' : g'.cycle = 0 := h.cycle_eq.trans hcycle
  rw [outset_of_not_begun hcycle, outset_of_not_begun hcycle', hstarts]
  exact ⟨{ h with cycle_eq := rfl }, rfl⟩

end Game

namespace Configuration

open Game Point

/-- Configurations for as many players, which differ in nothing that a match looks at. -/
structure PlaysLike (c c' : Configuration) : Prop where
  cost_eq : ∀ op, c'.rules.costs.cost op = c.rules.costs.cost op
  cyclesPerTurn_eq : c'.rules.cyclesPerTurn = c.rules.cyclesPerTurn
  maxCycles_eq : c'.rules.maxCycles = c.rules.maxCycles
  modifiers_eq : c'.contestants.map (·.settings.modifier) =
    c.contestants.map (·.settings.modifier)

variable {c c' : Configuration} {g g' : Game}

theorem PlaysLike.length_eq (h : c.PlaysLike c') :
    c'.contestants.length = c.contestants.length := by
  have hlength := congrArg List.length h.modifiers_eq
  rwa [List.length_map, List.length_map] at hlength

/-- Players who enter at the same starts are seen alike. -/
theorem PlaysLike.bare_initial_eq (hlike : c.PlaysLike c') {ps : List (Placing c)}
    {ps' : List (Placing c')} {m m' : Arena}
    (hstarts : (c'.initial ps' m').starts = (c.initial ps m).starts) :
    (c'.initial ps' m').players.map Player.bare = (c.initial ps m).players.map Player.bare := by
  have hlength := hlike.length_eq
  rw [← Array.toList_inj, Array.toList_map, Array.toList_map, initial, initial, List.map_map,
    List.map_map]
  apply List.ext_getElem
  · rw [List.length_map, List.length_map, List.length_finRange, List.length_finRange, hlength]
  · intro k hk' hk
    have hlt : k < c.contestants.length := by simpa using hk
    have hlt' : k < c'.contestants.length := by simpa using hk'
    have hmodifier : c'.contestants[k].settings.modifier =
        c.contestants[k].settings.modifier := by
      have hat := congrArg (·[k]?) hlike.modifiers_eq
      simpa [hlt, hlt'] using hat
    have hstart : UInt16.ofNat (startOf ps' ⟨k, hlt'⟩) = UInt16.ofNat (startOf ps ⟨k, hlt⟩) := by
      have hat := congrArg (·[k]?) hstarts
      simpa [initial, hlt, hlt'] using hat
    have hqueue : [{ ip := UInt16.ofNat (startOf ps' ⟨k, hlt'⟩) }] =
        [({ ip := UInt16.ofNat (startOf ps ⟨k, hlt⟩) } : Thread)] := by
      rw [hstart]
    rw [List.getElem_map, List.getElem_map, List.getElem_finRange, List.getElem_finRange]
    exact Player.bare_eq_iff.mpr ⟨rfl, hmodifier, hqueue⟩

/-- Games with the same starts begin alike. -/
theorem Fresh.alike (hc : c.WellFormed) (hg : c.Fresh g) (hc' : c'.WellFormed)
    (hg' : c'.Fresh g') (hlike : c.PlaysLike c') (hstarts : g'.starts = g.starts)
    (hbytes : ∀ a, g'.arena.byte a = g.arena.byte a) : g.Alike g' := by
  obtain ⟨ps, m, -, rfl⟩ := (fresh_iff hc).mp hg
  obtain ⟨ps', m', -, rfl⟩ := (fresh_iff hc').mp hg'
  constructor
  · exact hlike.cost_eq
  · exact hlike.cyclesPerTurn_eq
  · exact hlike.maxCycles_eq
  · exact hbytes
  · exact hlike.bare_initial_eq hstarts
  · rfl
  · exact hlike.length_eq

/-- Matches that differ in owners, points, names and caps only take the same course: their
logs are the same, and they end with the same cycles, survivors, threads and bytes. -/
theorem play_alike (hc : c.Accepted) (hg : c.Fresh g) (hc' : c'.Accepted) (hg' : c'.Fresh g')
    (hlike : c.PlaysLike c') (hstarts : g'.starts = g.starts)
    (hbytes : ∀ a, g'.arena.byte a = g.arena.byte a) :
    (g'.play none).events = (g.play none).events ∧
      (g'.play none).game.cycle = (g.play none).game.cycle ∧
      (g'.play none).game.alive = (g.play none).game.alive ∧
      (g'.play none).game.players.map Player.queue =
        (g.play none).game.players.map Player.queue ∧
      (∀ a, (g'.play none).game.arena.byte a = (g.play none).game.arena.byte a) ∧
      ∃ r r', (g.play none).result = .ok r ∧ (g'.play none).result = .ok r' ∧
        r'.cycles = r.cycles ∧ r'.survivors = r.survivors := by
  have hbegin : g.Alike g' :=
    Fresh.alike hc.wellFormed hg hc'.wellFormed hg' hlike hstarts hbytes
  have houtset : (g.outset none).session.Alike (g'.outset none).session :=
    hbegin.outset hstarts (hg.spec hc.wellFormed).2.1 none
  obtain ⟨s, hs, hover, -, hgame, hresult⟩ := exists_end hg hc.wellFormed
  obtain ⟨s', hs', hover', -, hgame', hresult'⟩ := exists_end hg' hc'.wellFormed
  have hend : (g.outset none).session.rounds.1 = s :=
    (isFinal_round_iff.mpr (.inr hover)).rounds_eq hs
  have hend' : (g'.outset none).session.rounds.1 = s' :=
    (isFinal_round_iff.mpr (.inr hover')).rounds_eq hs'
  -- The second match comes to an end where it is alike the end of the first.
  have halike : s.Alike s' := by
    obtain ⟨r, hr, halike⟩ := alike_of_reaches houtset hs
    have hover'' : r.game.isOver = true := halike.game.isOver_eq.trans hover
    have hsame : (g'.outset none).session.rounds.1 = r :=
      (isFinal_round_iff.mpr (.inr hover'')).rounds_eq hr
    rwa [← hend', hsame]
  have hfinish := halike.game.finish
  have hqueues : s'.game.finish.players.map Player.queue =
      s.game.finish.players.map Player.queue := by
    have hmapped := congrArg (Array.map Player.queue) hfinish.bare_eq
    rwa [Array.map_map, Array.map_map] at hmapped
  rw [events_play, events_play, hend, hend', hgame, hgame', hresult, hresult']
  exact ⟨by rw [halike.log_eq], hfinish.cycle_eq, hfinish.alive_eq, hqueues, hfinish.byte_eq,
    _, _, rfl, rfl, hfinish.cycle_eq, hfinish.living_eq⟩

/-! ## A duel for other points -/

/-- The members of a duel for other points, between players with names. -/
def namedDuelMembers : Members :=
  [("num_players", .number (.integer 2)), ("cycles_per_turn", .number (.integer 1)),
    ("max_cycles", .number (.integer 10)), ("score_for_killing_thread", .number (.integer 7)),
    ("score_for_killing_process", .number (.integer 1)),
    ("score_for_owning_ram", .number (.integer 3)),
    ("player_settings", .array
      [.object [("name", .string "Red"), ("max_threads", .number (.integer 1))],
        .object [("name", .string "Blue")]]),
    ("warriors", .array [.string "AAA=", .string "AAAAAA=="])]

/-- A duel for other points, between players with names. -/
def namedDuel : Configuration :=
  { duel with
    rules := { duel.rules with threadScore := 7, processScore := 1, memoryScore := 3 }
    contestants :=
      [⟨{ name := "Red", maxThreads := 1 }, [0, 0]⟩, ⟨{ name := "Blue" }, [0, 0, 0, 0]⟩] }

theorem accepted_namedDuel : namedDuel.Accepted := .inl ⟨.object namedDuelMembers, rfl⟩

theorem playsLike_namedDuel : duel.PlaysLike namedDuel := by
  constructor
  · intro op
    rfl
  · rfl
  · rfl
  · rfl

/-- A way to place the programs of the duel, one right behind the other. -/
def namedPlacings : List (Placing namedDuel) := [⟨⟨0, by decide⟩, 0⟩, ⟨⟨1, by decide⟩, 0⟩]

/-- The duel in an arena in which the first player owns what it is about to execute, which
is no instruction. -/
def ownTrapDuel : Game := namedDuel.initial namedPlacings (Arena.empty.writeByte 0 0x7C 1)

theorem fresh_ownTrapDuel : namedDuel.Fresh ownTrapDuel :=
  (fresh_iff accepted_namedDuel.wellFormed).mpr ⟨_, _, ⟨by decide, by decide⟩, rfl⟩

/-- The first player dies on a cell of the second one or on its own cell.  Only in the
first case the second player is credited, but the course is the same. -/
theorem play_alike_trappedDuel :
    duel.Accepted ∧ duel.Fresh trappedDuel ∧ namedDuel.Accepted ∧ namedDuel.Fresh ownTrapDuel ∧
      duel.PlaysLike namedDuel ∧ ownTrapDuel.starts = trappedDuel.starts ∧
      (∀ a, ownTrapDuel.arena.byte a = trappedDuel.arena.byte a) ∧
      (trappedDuel.play none).game.players.map Player.killedThreads = #[0, 1] ∧
      (ownTrapDuel.play none).game.players.map Player.killedThreads = #[0, 0] ∧
      (ownTrapDuel.play none).events = (trappedDuel.play none).events := by
  have hstarts : ownTrapDuel.starts = trappedDuel.starts := by decide
  have hbytes : ∀ a, ownTrapDuel.arena.byte a = trappedDuel.arena.byte a := by
    intro a
    change ((Arena.empty.writeByte 0 0x7C 1).cell a).byte =
      ((Arena.empty.writeByte 0 0x7C 2).cell a).byte
    rw [Arena.cell_writeByte, Arena.cell_writeByte]
    by_cases ha : 0 = a
    · rw [if_pos ha, if_pos ha]
    · rw [if_neg ha, if_neg ha]
  have hfresh : duel.Fresh trappedDuel := fresh_clearedDuel.patch _
  obtain ⟨hevents, -⟩ := play_alike accepted_duel hfresh accepted_namedDuel fresh_ownTrapDuel
    playsLike_namedDuel hstarts hbytes
  exact ⟨accepted_duel, hfresh, accepted_namedDuel, fresh_ownTrapDuel, playsLike_namedDuel,
    hstarts, hbytes, by decide +kernel, by decide +kernel, hevents⟩

end Configuration
end CoreWar
