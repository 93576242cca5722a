import CoreWar.Proofs.Match.Course

/-!
# Rounds follow the course

The loops of a match are what its steps lead through: playing rounds leads from
the start of a round to the start of another (`reaches_rounds`).  Where the rounds
stop, the log has refused an event, the match is over, or nobody is left to play
although the match is not over (`rounds_stop`).  Only in the last case the steps go
on for ever (`halts_iff`).
-/

namespace CoreWar

/-! ## The loops of a match as steps -/

namespace Session

open Point

/-- What comes behind the turn of a player: the next turn, unless the log has
refused an event. -/
def stageAfter (s : Session) (i : Nat) : Stage := if s.log.refused then .round else .turn (i + 1)

theorem stageAfter_of_refused {s : Session} (h : s.log.refused = true) (i : Nat) :
    s.stageAfter i = .round := by
  simp [stageAfter, h]

theorem stageAfter_of_not_refused {s : Session} (h : s.log.refused = false) (i : Nat) :
    s.stageAfter i = .turn (i + 1) := by
  simp [stageAfter, h]

theorem stageAfter_ne_hand (s : Session) (i : Nat) {j : Nat} {pid : UInt8} {t : Thread}
    {budget : Nat} : s.stageAfter i ≠ .hand j pid t budget := by
  unfold stageAfter
  split
  · exact Stage.noConfusion
  · exact Stage.noConfusion

theorem reaches_work (s : Session) (i : Nat) (pid : UInt8) (t : Thread) (budget : Nat)
    (hlog : s.log.refused = false) :
    Reaches ⟨s, .hand i pid t budget⟩
      ⟨s.work i pid t budget, (s.work i pid t budget).stageAfter i⟩ := by
  fun_induction work s i pid t budget with
  | case1 t game log =>
      rw [stageAfter_of_not_refused (s := ⟨game.requeue i t, log⟩) hlog]
      exact .single (.spent hlog)
  | case2 t budget game log hbudget next after left event fault? hc log' hpush =>
      rw [stageAfter_of_refused (s := ⟨next, log'⟩) hpush]
      have h := @Step.refuse ⟨game, log⟩ i pid t budget hlog hbudget
      simp only [hc] at h
      exact .single (h hpush)
  | case3 t budget game log hbudget next after left event fault? hc log' hpush hfault =>
      have hopen : log'.refused = false := eq_false_of_ne_true hpush
      rw [stageAfter_of_not_refused (s := ⟨next.kill i pid after, log'⟩) hopen]
      have h := @Step.die ⟨game, log⟩ i pid t budget hlog hbudget
      simp only [hc] at h
      exact .single (h hopen hfault)
  | case4 t budget game log hbudget next after left event fault? hc log' hpush hfault ih =>
      have hopen : log'.refused = false := eq_false_of_ne_true hpush
      have hlives : fault?.isSome = false := eq_false_of_ne_true hfault
      have h := @Step.pay ⟨game, log⟩ i pid t budget hlog hbudget
      simp only [hc] at h
      exact .head (h hopen hlives) (ih hopen)

theorem turn_of_refused {s : Session} (h : s.log.refused = true) (i : Nat) : s.turn i = s := by
  obtain ⟨game, log⟩ := s
  exact if_pos h

theorem turn_of_next?_eq_none {s : Session} {i : Nat} (h : s.game.next? i = none) :
    s.turn i = s := by
  obtain ⟨game, log⟩ := s
  have h : game.next? i = none := h
  simp [turn, h]

theorem turn_of_next?_eq_some {s : Session} {i : Nat} {t : Thread} {p : Player}
    (hlog : s.log.refused = false) (h : s.game.next? i = some (t, p)) :
    s.turn i = work ⟨s.game.setPlayer i p, s.log⟩ i p.pid t
      (p.turnBudget s.game.rules.cyclesPerTurn) := by
  obtain ⟨game, log⟩ := s
  have h : game.next? i = some (t, p) := h
  have hlog : log.refused = false := hlog
  simp [turn, h, hlog]

theorem reaches_turn {s : Session} {i : Nat} (hlog : s.log.refused = false)
    (hi : i < s.game.players.size) :
    Reaches ⟨s, .turn i⟩ ⟨s.turn i, (s.turn i).stageAfter i⟩ := by
  cases hnext : s.game.next? i with
  | none =>
      rw [turn_of_next?_eq_none hnext, stageAfter_of_not_refused hlog]
      exact .single (.skip hlog hi hnext)
  | some x =>
      obtain ⟨t, p⟩ := x
      rw [turn_of_next?_eq_some hlog hnext]
      exact .head (.take hlog hi hnext) (reaches_work _ _ _ _ _ hlog)

theorem foldl_turn_of_refused {s : Session} (h : s.log.refused = true) (indices : List Nat) :
    indices.foldl turn s = s := by
  induction indices with
  | nil => rfl
  | cons i is ih => rw [List.foldl_cons, turn_of_refused h, ih]

/-- The turns of the players from an index on. -/
theorem reaches_turns {s : Session} {i n : Nat} (hlog : s.log.refused = false)
    (hn : i + n = s.game.players.size) :
    Reaches ⟨s, .turn i⟩ ⟨(List.range' i n).foldl turn s, .round⟩ := by
  induction n generalizing s i with
  | zero => exact .single (.leave hlog (by omega))
  | succ n ih =>
      rw [List.range'_succ, List.foldl_cons]
      have hturn := reaches_turn hlog (i := i) (by omega)
      cases hafter : (s.turn i).log.refused with
      | true =>
          rw [stageAfter_of_refused hafter] at hturn
          rw [foldl_turn_of_refused hafter]
          exact hturn
      | false =>
          rw [stageAfter_of_not_refused hafter] at hturn
          have hsize : (s.turn i).game.players.size = s.game.players.size := size_of_reaches hturn
          exact hturn.trans (ih hafter (by omega))

theorem reaches_round {s : Session} (hlog : s.log.refused = false)
    (hover : s.game.isOver = false) : Reaches ⟨s, .round⟩ ⟨s.round, .round⟩ := by
  have hturns := reaches_turns (s := s) (i := 0) hlog (Nat.zero_add _)
  rw [← List.range_eq_range'] at hturns
  exact .head (.enter hlog hover) hturns

theorem reaches_rounds (s : Session) : Reaches ⟨s, .round⟩ ⟨s.rounds.1, .round⟩ := by
  fun_induction rounds s with
  | case1 s hlog => exact .refl
  | case2 s hlog hover => exact .refl
  | case3 s hlog hover cycle after hlater ih =>
      have hround := reaches_round (eq_false_of_ne_true hlog) (eq_false_of_ne_true hover)
      exact hround.trans ih
  | case4 s hlog hover cycle after hlater =>
      exact reaches_round (eq_false_of_ne_true hlog) (eq_false_of_ne_true hover)

/-- Rounds that follow one another, each given by the session in which it begins. -/
inductive RoundsTo : Session → List Session → Session → Prop
  | refl (s : Session) : RoundsTo s [] s
  | head {s s' : Session} {ss : List Session} (hlog : s.log.refused = false)
      (hover : s.game.isOver = false) (h : RoundsTo s.round ss s') : RoundsTo s (s :: ss) s'

/-- The rounds of a match follow one another. -/
theorem exists_roundsTo (s : Session) : ∃ ss, RoundsTo s ss s.rounds.1 := by
  fun_induction rounds s with
  | case1 s hlog => exact ⟨[], .refl s⟩
  | case2 s hlog hover => exact ⟨[], .refl s⟩
  | case3 s hlog hover cycle after hlater ih =>
      obtain ⟨ss, hss⟩ := ih
      exact ⟨s :: ss, .head (eq_false_of_ne_true hlog) (eq_false_of_ne_true hover) hss⟩
  | case4 s hlog hover cycle after hlater =>
      exact ⟨[s], .head (eq_false_of_ne_true hlog) (eq_false_of_ne_true hover) (.refl _)⟩

/-- Where a round begins is reached, and the match is not over there. -/
theorem RoundsTo.reaches {s s' r : Session} {ss : List Session} (h : RoundsTo s ss s')
    (hr : r ∈ ss) : Reaches ⟨s, .round⟩ ⟨r, .round⟩ ∧ r.game.isOver = false := by
  induction h with
  | refl => cases hr
  | head hlog hover _ ih =>
      rcases List.mem_cons.mp hr with rfl | hr
      · exact ⟨.refl, hover⟩
      · obtain ⟨hreaches, hrest⟩ := ih hr
        exact ⟨(reaches_round hlog hover).trans hreaches, hrest⟩

/-- Where rounds end, the last of them has led to. -/
theorem RoundsTo.eq_or_exists_last {s s' : Session} {ss : List Session} (h : RoundsTo s ss s') :
    (ss = [] ∧ s' = s) ∨ ∃ r, ss.getLast? = some r ∧ s' = r.round := by
  induction h with
  | refl => exact .inl ⟨rfl, rfl⟩
  | @head s s' ss hlog hover _ ih =>
      rcases ih with ⟨rfl, rfl⟩ | ⟨r, hr, rfl⟩
      · exact .inr ⟨s, rfl, rfl⟩
      · exact .inr ⟨r, by simp [List.getLast?_cons, hr], rfl⟩

/-! ## Rounds in which nobody plays -/

/-- A turn that is taken counts at least one cycle. -/
theorem cycle_lt_turn {s : Session} {i : Nat} {t : Thread} {p : Player}
    (hlog : s.log.refused = false) (h : s.game.next? i = some (t, p)) :
    s.game.cycle < (s.turn i).game.cycle := by
  have hbudget := Nat.pos_iff_ne_zero.mp (p.turnBudget_pos s.game.rules.cyclesPerTurn)
  have hwork := reaches_work ⟨s.game.setPlayer i p, s.log⟩ i p.pid t
    (p.turnBudget s.game.rules.cyclesPerTurn) hlog
  rw [turn_of_next?_eq_some hlog h]
  exact cycle_lt_of_reaches_hand hbudget hwork fun _ _ _ _ => stageAfter_ne_hand _ _

theorem cycle_le_turn (s : Session) (i : Nat) : s.game.cycle ≤ (s.turn i).game.cycle := by
  cases hlog : s.log.refused with
  | true => exact Nat.le_of_eq (by rw [turn_of_refused hlog])
  | false =>
      cases hnext : s.game.next? i with
      | none => exact Nat.le_of_eq (by rw [turn_of_next?_eq_none hnext])
      | some x => exact Nat.le_of_lt (cycle_lt_turn hlog hnext)

theorem cycle_le_foldl_turn (s : Session) (indices : List Nat) :
    s.game.cycle ≤ (indices.foldl turn s).game.cycle := by
  induction indices generalizing s with
  | nil => exact Nat.le_refl _
  | cons i is ih => exact Nat.le_trans (s.cycle_le_turn i) (ih _)

/-- Players either count cycles or have no threads and change nothing. -/
theorem foldl_turn_idle_or_lt {s : Session} (hlog : s.log.refused = false) (indices : List Nat) :
    ((∀ i ∈ indices, s.game.next? i = none) ∧ indices.foldl turn s = s) ∨
      s.game.cycle < (indices.foldl turn s).game.cycle := by
  induction indices with
  | nil => exact .inl ⟨by simp, rfl⟩
  | cons i is ih =>
      rw [List.foldl_cons]
      cases hnext : s.game.next? i with
      | some x =>
          exact .inr (Nat.lt_of_lt_of_le (cycle_lt_turn hlog hnext) (cycle_le_foldl_turn _ is))
      | none =>
          rw [turn_of_next?_eq_none hnext]
          obtain ⟨hnone, hsame⟩ | hlt := ih
          · exact .inl ⟨List.forall_mem_cons.mpr ⟨hnext, hnone⟩, hsame⟩
          · exact .inr hlt

end Session

theorem Game.next?_eq_none_iff {g : Game} {i : Nat} :
    g.next? i = none ↔ ∀ p ∈ g.players[i]?, p.isAlive = false := by
  unfold Game.next?
  cases g.players[i]? with
  | none => simp
  | some p => simp [← Bool.not_eq_true, p.isAlive_iff_next?, Option.isSome_iff_ne_none]

/-- Nobody is left exactly if there is no thread whose turn it could be. -/
theorem Game.living_eq_zero_iff {g : Game} :
    g.living = 0 ↔ ∀ i < g.players.size, g.next? i = none := by
  simp only [Game.living, Array.countP_eq_zero, Game.next?_eq_none_iff, Bool.not_eq_true]
  constructor
  · intro h i _ p hp
    exact h p (Array.mem_of_getElem? hp)
  · intro h p hp
    obtain ⟨i, hi, rfl⟩ := Array.mem_iff_getElem.mp hp
    exact h i hi _ (Array.getElem?_eq_getElem hi)

namespace Session

/-- How a match stands when its rounds stop. -/
theorem rounds_stop (s : Session) :
    (s.rounds.2 = .refused → s.rounds.1.log.refused = true) ∧
      (s.rounds.2 = .over → s.rounds.1.log.refused = false ∧ s.rounds.1.game.isOver = true) ∧
      (s.rounds.2 = .stalled → s.rounds.1.log.refused = false ∧
        s.rounds.1.game.isOver = false ∧ s.rounds.1.game.living = 0) := by
  fun_induction rounds s with
  | case1 s hlog => simp [hlog]
  | case2 s hlog hover => simp [hover, eq_false_of_ne_true hlog]
  | case3 s hlog hover cycle after hlater ih => exact ih
  | case4 s hlog hover cycle after hlater =>
      have hlog' := eq_false_of_ne_true hlog
      obtain ⟨hnone, hsame⟩ | hlt := foldl_turn_idle_or_lt hlog' (List.range s.game.players.size)
      · have hsame : after = s := hsame
        have hliving : s.game.living = 0 :=
          Game.living_eq_zero_iff.mpr fun i hi => hnone i (List.mem_range.mpr hi)
        simp [hsame, hlog', hliving, eq_false_of_ne_true hover]
      · exact absurd hlt hlater

end Session

/-! ## Coming to an end -/

namespace Point

open Session

theorem isFinal_round_iff {s : Session} :
    IsFinal ⟨s, .round⟩ ↔ s.log.refused = true ∨ s.game.isOver = true := by
  constructor
  · intro h
    cases hlog : s.log.refused with
    | true => exact .inl rfl
    | false =>
        cases hover : s.game.isOver with
        | true => exact .inr rfl
        | false => exact absurd (.enter hlog hover) (h _)
  · rintro hend q ⟨⟩
    simp_all

/-- Once nobody is left, turns are only passed over: a match that is not over
then goes on like that for ever. -/
theorem not_isFinal_of_idle {s : Session} (hlog : s.log.refused = false)
    (hover : s.game.isOver = false) (hliving : s.game.living = 0) {q : Point}
    (h : Reaches ⟨s, .round⟩ q) : ¬q.IsFinal := by
  have hnone := Game.living_eq_zero_iff.mp hliving
  have hidle : q.session = s ∧ (q.stage = .round ∨ ∃ i, q.stage = .turn i) := by
    refine invariant (P := fun q => q.session = s ∧ (q.stage = .round ∨ ∃ i, q.stage = .turn i))
      ?_ ⟨rfl, .inl rfl⟩ h
    rintro p q ⟨rfl, hstage⟩ hstep
    cases hstep with
    | enter => exact ⟨rfl, .inr ⟨0, rfl⟩⟩
    | leave => exact ⟨rfl, .inl rfl⟩
    | @skip _ i => exact ⟨rfl, .inr ⟨i + 1, rfl⟩⟩
    | take _ hi hnext => simp [hnone _ hi] at hnext
    | spent => simp at hstage
    | refuse => simp at hstage
    | die => simp at hstage
    | pay => simp at hstage
  obtain ⟨session, stage⟩ := q
  obtain ⟨rfl, rfl | ⟨i, rfl⟩⟩ := hidle
  · exact fun hfinal => hfinal _ (.enter hlog hover)
  · intro hfinal
    by_cases hi : i < session.game.players.size
    · exact hfinal _ (.skip hlog hi (hnone i hi))
    · exact hfinal _ (.leave hlog (Nat.le_of_not_lt hi))

/-- A match does not come to an end exactly if it comes to a round that begins
with nobody left. -/
theorem not_halts_iff {s : Session} :
    ¬Halts ⟨s, .round⟩ ↔ ∃ s', Reaches ⟨s, .round⟩ ⟨s', .round⟩ ∧
      s'.log.refused = false ∧ s'.game.isOver = false ∧ s'.game.living = 0 := by
  constructor
  · -- The rounds lead to a point where they stop, and only an idle one is not final.
    intro hnot
    obtain ⟨hrefused, hover, hstalled⟩ := s.rounds_stop
    have hreaches := s.reaches_rounds
    refine ⟨s.rounds.1, hreaches, ?_⟩
    cases hend : s.rounds.2 with
    | refused => exact absurd ⟨_, hreaches, isFinal_round_iff.mpr (.inl (hrefused hend))⟩ hnot
    | «over» => exact absurd ⟨_, hreaches, isFinal_round_iff.mpr (.inr (hover hend).2)⟩ hnot
    | stalled => exact hstalled hend
  · rintro ⟨s', hs', hlog, hover, hliving⟩ ⟨q, hq, hfinal⟩
    -- There is only one course, so the final point lies before or behind the idle one.
    obtain hback | hon := Relation.ReflTransGen.total_of_right_unique step_unique hq hs'
    · have hsame := hfinal.eq_of_reaches hback
      exact not_isFinal_of_idle hlog hover hliving (hsame ▸ .refl) hfinal
    · exact not_isFinal_of_idle hlog hover hliving hon hfinal

/-- The rounds of a match tell whether it comes to an end. -/
theorem halts_iff {s : Session} : Halts ⟨s, .round⟩ ↔ s.rounds.2 ≠ .stalled := by
  obtain ⟨hrefused, hover, hstalled⟩ := s.rounds_stop
  constructor
  · intro h hend
    exact not_halts_iff.mpr ⟨_, s.reaches_rounds, hstalled hend⟩ h
  · intro hend
    refine ⟨_, s.reaches_rounds, isFinal_round_iff.mpr ?_⟩
    cases h : s.rounds.2 with
    | refused => exact .inl (hrefused h)
    | «over» => exact .inr (hover h).2
    | stalled => exact absurd h hend

/-- Rounds end where the match comes to an end. -/
theorem IsFinal.rounds_eq {s s' : Session} (hfinal : IsFinal ⟨s', .round⟩)
    (h : Reaches ⟨s, .round⟩ ⟨s', .round⟩) : s.rounds.1 = s' := by
  obtain ⟨hrefused, hover, hstalled⟩ := s.rounds_stop
  have hback : Reaches ⟨s.rounds.1, .round⟩ ⟨s', .round⟩ :=
    hfinal.reaches_of_reaches h s.reaches_rounds
  have hsame (hend : IsFinal ⟨s.rounds.1, .round⟩) : s.rounds.1 = s' :=
    congrArg session (hend.eq_of_reaches hback).symm
  cases hend : s.rounds.2 with
  | refused => exact hsame (isFinal_round_iff.mpr (.inl (hrefused hend)))
  | «over» => exact hsame (isFinal_round_iff.mpr (.inr (hover hend).2))
  | stalled =>
      obtain ⟨hlog, hrest, hliving⟩ := hstalled hend
      exact absurd hfinal (not_isFinal_of_idle hlog hrest hliving hback)

end Point

namespace Game

open Point Session

/-- Where a match stands at the start of a call that plays it with a log of the
given capacity. -/
def outset (g : Game) (capacity : Option Nat) : Point :=
  ⟨(Session.mk g { capacity }).opened, .round⟩

theorem outset_of_begun {g : Game} (h : g.cycle ≠ 0) (capacity : Option Nat) :
    g.outset capacity = ⟨⟨g, { capacity }⟩, .round⟩ := by
  rw [outset, opened]
  exact congrArg (Point.mk · .round) (if_neg h)

/-- A match that has not begun begins with an event, unless the log refuses it. -/
theorem outset_of_not_begun {g : Game} (h : g.cycle = 0) (capacity : Option Nat) :
    g.outset capacity =
      let log := EventLog.push { capacity } (.init 0 g.starts)
      ⟨⟨{ g with cycle := if log.refused then 0 else 1 }, log⟩, .round⟩ := by
  rw [outset, opened]
  exact congrArg (Point.mk · .round) (if_pos h)

/-- A call takes the rules and the players as they are. -/
theorem outset_keeps (g : Game) (capacity : Option Nat) :
    (g.outset capacity).session.game.rules = g.rules ∧
      (g.outset capacity).session.game.players = g.players := by
  by_cases hcycle : g.cycle = 0
  · rw [outset_of_not_begun hcycle]
    exact ⟨rfl, rfl⟩
  · rw [outset_of_begun hcycle]
    exact ⟨rfl, rfl⟩

theorem unlimited_outset (g : Game) : (g.outset none).session.log.capacity = none ∧
    (g.outset none).session.log.refused = false := by
  by_cases hcycle : g.cycle = 0
  · rw [outset_of_not_begun hcycle]
    exact ⟨rfl, rfl⟩
  · rw [outset_of_begun hcycle]
    exact ⟨rfl, rfl⟩

/-- What a call to play a match gives: the match goes on to the end of a round,
where the log has refused an event, the match is over, or nobody is left but the
match is not over. -/
theorem play_cases (g : Game) (capacity : Option Nat) :
    ∃ s, Reaches (g.outset capacity) ⟨s, .round⟩ ∧
      (g.play capacity).events = s.log.events.toList ∧
      ((s.log.refused = true ∧ g.play capacity = ⟨s.game, s.log.events.toList, .error .logFull⟩) ∨
        (s.log.refused = false ∧ s.game.isOver = true ∧
          g.play capacity = ⟨s.game.finish, s.log.events.toList, .ok s.game.finish.report⟩) ∨
        (s.log.refused = false ∧ s.game.isOver = false ∧ s.game.living = 0 ∧
          g.play capacity = ⟨s.game, s.log.events.toList, .error .endless⟩)) := by
  have hreaches := (Session.mk g { capacity }).opened.reaches_rounds
  obtain ⟨hrefused, hover, hstalled⟩ := (Session.mk g { capacity }).opened.rounds_stop
  unfold play
  cases hrounds : (Session.mk g { capacity }).opened.rounds with
  | mk s ending =>
      rw [hrounds] at hreaches hrefused hover hstalled
      refine ⟨s, hreaches, ?_⟩
      obtain ⟨game, log⟩ := s
      cases ending with
      | refused => exact ⟨rfl, .inl ⟨hrefused rfl, rfl⟩⟩
      | «over» =>
          obtain ⟨hlog, hend⟩ := hover rfl
          exact ⟨rfl, .inr (.inl ⟨hlog, hend, rfl⟩)⟩
      | stalled =>
          obtain ⟨hlog, hend, hliving⟩ := hstalled rfl
          exact ⟨rfl, .inr (.inr ⟨hlog, hend, hliving, rfl⟩)⟩

/-- A match that has stopped at the end of a round gives what it has come to. -/
theorem play_of_isFinal {g : Game} {s : Session} {capacity : Option Nat}
    (h : Reaches (g.outset capacity) ⟨s, .round⟩) (hfinal : IsFinal ⟨s, .round⟩) :
    g.play capacity =
      if s.log.refused then
        ⟨s.game, s.log.events.toList, .error .logFull⟩
      else
        ⟨s.game.finish, s.log.events.toList, .ok s.game.finish.report⟩ := by
  obtain ⟨s', hs', -, hplay⟩ := g.play_cases capacity
  have hback : Reaches ⟨s', .round⟩ ⟨s, .round⟩ := hfinal.reaches_of_reaches h hs'
  have hsame (hend : s'.log.refused = true ∨ s'.game.isOver = true) : s = s' :=
    congrArg session ((isFinal_round_iff.mpr hend).eq_of_reaches hback)
  obtain ⟨hrefused, hplay⟩ | ⟨hopen, hover, hplay⟩ | ⟨hopen, hrest, hliving, -⟩ := hplay
  · rw [hsame (.inl hrefused), if_pos hrefused, hplay]
  · rw [hsame (.inr hover), if_neg (by simp [hopen]), hplay]
  · exact absurd hfinal (not_isFinal_of_idle hopen hrest hliving hback)

theorem events_play (g : Game) (capacity : Option Nat) :
    (g.play capacity).events = (g.outset capacity).session.rounds.1.log.events.toList := by
  rw [outset, play]
  cases (Session.mk g { capacity }).opened.rounds with
  | mk s ending =>
      obtain ⟨game, log⟩ := s
      cases ending with
      | refused => rfl
      | «over» => rfl
      | stalled => rfl

/-- A call comes to an end exactly if it does not turn out to be endless. -/
theorem halts_outset_iff (g : Game) (capacity : Option Nat) :
    (g.outset capacity).Halts ↔ (g.play capacity).result ≠ .error .endless := by
  rw [outset, halts_iff, play]
  cases hrounds : (Session.mk g { capacity }).opened.rounds with
  | mk s ending =>
      obtain ⟨game, log⟩ := s
      cases ending with
      | refused => simp
      | «over» => simp
      | stalled => simp

end Game
end CoreWar
