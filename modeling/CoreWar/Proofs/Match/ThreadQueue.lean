import CoreWar.Match.Player
import Mathlib.Data.List.Perm.Basic

/-!
# The queue of a player

A thread is spawned into the queue of a player, is taken from it for a turn, and is put
back, perhaps changed, unless it has died.  A ledger records what is done to the queue.
In every sequence of such moves threads leave the queue in the order in which they have
entered it, and none is lost or doubled (`Ledger.Balanced`).

The number of threads is capped when a thread is spawned.  But only the threads that wait
are counted then, not those that are out, and putting a thread back is not checked at all.
So a thread that is spawned while others are out may be one too many, and then the queue
outgrows the cap when they come back (`cap_exceeded`).  This is the only way: where no
thread is spawned in excess, a player never has more threads than it may have
(`queue_of_legal`).
-/

namespace CoreWar
namespace Player

/-- What is done to the queue of a player. -/
inductive QueueMove where
  | spawn (t : Thread)
  | next
  /-- A thread that was taken is put back as it is after its turn. -/
  | requeue (taken back : Thread)
  deriving DecidableEq, Repr

/-- A player and what has been done to its queue. -/
structure Ledger where
  player : Player
  /-- The threads that have been taken and not put back. -/
  out : List Thread := []
  /-- The threads that the cap has let in. -/
  spawned : List Thread := []
  /-- The threads that have been put back, each as it was taken and as it came back. -/
  returned : List (Thread × Thread) := []
  /-- The threads that have entered the queue, in order. -/
  entered : List Thread := []
  /-- The threads that have left the queue, in order. -/
  left : List Thread := []

namespace Ledger

/-- The ledger of a player before its first thread. -/
def opened (pid : UInt8) (settings : PlayerSettings) : Ledger where
  player := { pid, settings }

/-- The ledger after a move. -/
def apply (l : Ledger) : QueueMove → Ledger
  | .spawn t =>
    match l.player.spawn? t with
    | some p => { l with player := p, spawned := t :: l.spawned, entered := l.entered ++ [t] }
    | none => l
  | .next =>
    match l.player.next? with
    | some (t, p) => { l with player := p, out := t :: l.out, left := l.left ++ [t] }
    | none => l
  | .requeue taken back =>
    { l with
      player := l.player.requeue back
      out := l.out.erase taken
      returned := (taken, back) :: l.returned
      entered := l.entered ++ [back] }

/-- The ledger at every moment of a sequence of moves. -/
def course (l : Ledger) (moves : List QueueMove) : List Ledger := moves.scanl apply l

/-- Only a thread that is out can be put back. -/
def Admits (l : Ledger) : QueueMove → Prop
  | .requeue taken _ => taken ∈ l.out
  | _ => True

/-- Every move of a sequence is possible when it is made. -/
def Legal : Ledger → List QueueMove → Prop
  | _, [] => True
  | l, m :: ms => l.Admits m ∧ (l.apply m).Legal ms

/-- The moves that put back, unchanged, all threads that are out. -/
def puttingBack (l : Ledger) : List QueueMove := l.out.map fun t => .requeue t t

/-- The number of threads that a player has: those that wait and those that are out. -/
def owned (l : Ledger) : Nat := l.player.queue.length + l.out.length

/-- A thread is spawned although the player has as many threads as it may have. -/
def Oversubscribes (l : Ledger) : QueueMove → Prop
  | .spawn t => (l.player.spawn? t).isSome ∧ l.player.settings.maxThreads ≤ l.owned
  | _ => False

/-- Some move of a sequence spawns a thread in excess. -/
def Oversubscribed : Ledger → List QueueMove → Prop
  | _, [] => False
  | l, m :: ms => l.Oversubscribes m ∨ (l.apply m).Oversubscribed ms

instance (l : Ledger) : (m : QueueMove) → Decidable (l.Admits m)
  | .spawn _ => .isTrue trivial
  | .next => .isTrue trivial
  | .requeue taken _ => inferInstanceAs (Decidable (taken ∈ l.out))

instance decidableLegal : (l : Ledger) → (moves : List QueueMove) → Decidable (l.Legal moves)
  | _, [] => .isTrue trivial
  | l, m :: ms =>
    have := decidableLegal (l.apply m) ms
    inferInstanceAs (Decidable (l.Admits m ∧ (l.apply m).Legal ms))

instance (l : Ledger) : (m : QueueMove) → Decidable (l.Oversubscribes m)
  | .spawn t => inferInstanceAs
      (Decidable ((l.player.spawn? t).isSome ∧ l.player.settings.maxThreads ≤ l.owned))
  | .next => .isFalse id
  | .requeue _ _ => .isFalse id

instance decidableOversubscribed :
    (l : Ledger) → (moves : List QueueMove) → Decidable (l.Oversubscribed moves)
  | _, [] => .isFalse id
  | l, m :: ms =>
    have := decidableOversubscribed (l.apply m) ms
    inferInstanceAs (Decidable (l.Oversubscribes m ∨ (l.apply m).Oversubscribed ms))

/-- First in, first out, and every thread exactly once: what has entered the queue has left it in
the same order or still waits; it was spawned or put back; and what has left the queue is out or has
been put back. -/
structure Balanced (l : Ledger) : Prop where
  order : l.entered = l.left ++ l.player.queue
  entered_perm : l.entered.Perm (l.spawned ++ l.returned.map Prod.snd)
  left_perm : l.left.Perm (l.out ++ l.returned.map Prod.fst)

variable {l l' : Ledger} {m : QueueMove} {moves : List QueueMove} {pid : UInt8}
  {settings : PlayerSettings}

/-! ## One move -/

/-- What a move does.  A thread is spawned below the cap and refused otherwise, and a thread is
taken unless none waits. -/
inductive Step (l : Ledger) : QueueMove → Ledger → Prop
  | spawned {t : Thread} (hcap : l.player.queue.length < l.player.settings.maxThreads) :
      Step l (.spawn t)
        { l with
          player := { l.player with queue := l.player.queue ++ [t] }
          spawned := t :: l.spawned
          entered := l.entered ++ [t] }
  | refused {t : Thread} (hcap : ¬l.player.queue.length < l.player.settings.maxThreads) :
      Step l (.spawn t) l
  | taken {t : Thread} {ts : List Thread} (hqueue : l.player.queue = t :: ts) :
      Step l .next
        { l with
          player := { l.player with queue := ts }
          out := t :: l.out
          left := l.left ++ [t] }
  | idle (hqueue : l.player.queue = []) : Step l .next l
  | putBack {taken back : Thread} :
      Step l (.requeue taken back)
        { l with
          player := { l.player with queue := l.player.queue ++ [back] }
          out := l.out.erase taken
          returned := (taken, back) :: l.returned
          entered := l.entered ++ [back] }

theorem step_apply (l : Ledger) (m : QueueMove) : l.Step m (l.apply m) := by
  cases m with
  | spawn t =>
      by_cases hcap : l.player.queue.length < l.player.settings.maxThreads
      · simpa only [apply, spawn?, if_pos hcap] using Step.spawned hcap
      · simpa only [apply, spawn?, if_neg hcap] using Step.refused hcap
  | next =>
      cases hqueue : l.player.queue with
      | nil => simpa only [apply, next?, hqueue] using Step.idle hqueue
      | cons t ts => simpa only [apply, next?, hqueue] using Step.taken hqueue
  | requeue taken back => exact .putBack

/-- No move changes the settings. -/
theorem Step.settings_eq (h : l.Step m l') : l'.player.settings = l.player.settings := by
  cases h <;> rfl

/-- A move keeps the books. -/
theorem Step.balanced (h : l.Step m l') (hm : l.Admits m) (hl : l.Balanced) : l'.Balanced := by
  obtain ⟨horder, hentered, hleft⟩ := hl
  cases h with
  | @spawned t hcap =>
      refine ⟨?_, ?_, hleft⟩
      · show l.entered ++ [t] = l.left ++ (l.player.queue ++ [t])
        rw [horder, List.append_assoc]
      · exact (List.perm_append_singleton t l.entered).trans (hentered.cons t)
  | @taken t ts hqueue =>
      refine ⟨?_, hentered, ?_⟩
      · show l.entered = l.left ++ [t] ++ ts
        rw [horder, hqueue, List.append_assoc, List.singleton_append]
      · exact (List.perm_append_singleton t l.left).trans (hleft.cons t)
  | @putBack taken back =>
      refine ⟨?_, ?_, ?_⟩
      · show l.entered ++ [back] = l.left ++ (l.player.queue ++ [back])
        rw [horder, List.append_assoc]
      · show (l.entered ++ [back]).Perm (l.spawned ++ back :: l.returned.map Prod.snd)
        exact ((List.perm_append_singleton back l.entered).trans (hentered.cons back)).trans
          List.perm_middle.symm
      · -- The thread that is put back passes from those that are out to those that came back.
        show l.left.Perm (l.out.erase taken ++ taken :: l.returned.map Prod.fst)
        have hout : l.out.Perm (taken :: l.out.erase taken) := List.perm_cons_erase hm
        exact (hleft.trans (hout.append_right _)).trans List.perm_middle.symm
  | refused | idle => exact ⟨horder, hentered, hleft⟩

/-- A move brings a player more threads than it may have exactly if it spawns one in excess. -/
theorem Step.owned_le_iff (h : l.Step m l') (hm : l.Admits m)
    (hl : l.owned ≤ l.player.settings.maxThreads) :
    l'.owned ≤ l.player.settings.maxThreads ↔ ¬l.Oversubscribes m := by
  cases h with
  | @spawned t hcap =>
      have hspawn : l.Oversubscribes (.spawn t) ↔ l.player.settings.maxThreads ≤ l.owned := by
        simp [Oversubscribes, spawn?, hcap]
      have howned : l.owned = l.player.queue.length + l.out.length := rfl
      rw [hspawn, howned]
      simp only [owned, List.length_append, List.length_cons, List.length_nil]
      omega
  | @refused t hcap =>
      have hspawn : ¬l.Oversubscribes (.spawn t) := by simp [Oversubscribes, spawn?, hcap]
      exact iff_of_true hl hspawn
  | taken hqueue =>
      refine iff_of_true ?_ id
      rw [owned, hqueue] at hl
      simp only [owned, List.length_cons] at hl ⊢
      omega
  | idle => exact iff_of_true hl id
  | @putBack taken back =>
      have hmem : taken ∈ l.out := hm
      have hpos := List.length_pos_of_mem hmem
      refine iff_of_true ?_ id
      rw [owned] at hl
      simp only [owned, List.length_append, List.length_cons, List.length_nil,
        List.length_erase_of_mem hmem]
      omega

/-! ## Sequences of moves -/

theorem course_cons (l : Ledger) (m : QueueMove) (ms : List QueueMove) :
    l.course (m :: ms) = l :: (l.apply m).course ms := List.scanl_cons

theorem mem_course (l : Ledger) (moves : List QueueMove) : l ∈ l.course moves := by
  cases moves with
  | nil => exact List.mem_singleton_self l
  | cons m ms =>
      rw [course_cons]
      exact List.mem_cons_self

/-- The books are kept at every moment. -/
theorem Balanced.of_mem_course (h : l.Balanced) (hmoves : l.Legal moves) :
    ∀ x ∈ l.course moves, x.Balanced := by
  induction moves generalizing l with
  | nil => simpa [course] using h
  | cons m ms ih =>
      obtain ⟨hm, hms⟩ := hmoves
      rw [course_cons, List.forall_mem_cons]
      exact ⟨h, ih ((step_apply l m).balanced hm h) hms⟩

/-- A player has at no moment more threads than it may have exactly if none is spawned in excess. -/
theorem owned_le_iff (hmoves : l.Legal moves) (h : l.owned ≤ l.player.settings.maxThreads) :
    (∀ x ∈ l.course moves, x.owned ≤ l.player.settings.maxThreads) ↔
      ¬l.Oversubscribed moves := by
  induction moves generalizing l with
  | nil => simpa [course, Oversubscribed] using h
  | cons m ms ih =>
      obtain ⟨hm, hms⟩ := hmoves
      have hrest := @ih (l.apply m) hms
      have hstep := step_apply l m
      rw [hstep.settings_eq] at hrest
      rw [course_cons, List.forall_mem_cons, Oversubscribed, not_or, ← hstep.owned_le_iff hm h]
      constructor
      · rintro ⟨-, hall⟩
        have hnext := hall _ (mem_course _ ms)
        exact ⟨hnext, (hrest hnext).mp hall⟩
      · rintro ⟨hnext, hnone⟩
        exact ⟨h, (hrest hnext).mpr hnone⟩

theorem Balanced.length_spawned (h : l.Balanced) : l.spawned.length = l.owned := by
  have horder := congrArg List.length h.order
  have hentered := h.entered_perm.length_eq
  have hleft := h.left_perm.length_eq
  simp only [List.length_append, List.length_map] at horder hentered hleft
  rw [owned]
  omega

/-- Where threads come back unchanged, a player has those that were spawned. -/
theorem Balanced.perm_of_unchanged (h : l.Balanced) (hsame : ∀ x ∈ l.returned, x.1 = x.2) :
    l.spawned.Perm (l.player.queue ++ l.out) := by
  have hmap : l.returned.map Prod.fst = l.returned.map Prod.snd := List.map_congr_left hsame
  have hleft := h.left_perm
  rw [hmap] at hleft
  have hall : (l.spawned ++ l.returned.map Prod.snd).Perm
      (l.player.queue ++ l.out ++ l.returned.map Prod.snd) :=
    calc (l.spawned ++ l.returned.map Prod.snd).Perm l.entered := h.entered_perm.symm
      _ = l.left ++ l.player.queue := h.order
      List.Perm _ (l.player.queue ++ l.left) := List.perm_append_comm
      List.Perm _ (l.player.queue ++ (l.out ++ l.returned.map Prod.snd)) := hleft.append_left _
      _ = l.player.queue ++ l.out ++ l.returned.map Prod.snd := (List.append_assoc ..).symm
  exact (List.perm_append_right_iff _).mp hall

/-! ## Putting threads back -/

/-- All threads that are out can be put back, and then all that a player has wait. -/
theorem puttingBack_spec (l : Ledger) :
    l.Legal l.puttingBack ∧ ¬l.Oversubscribed l.puttingBack ∧
      ∃ x ∈ l.course l.puttingBack, x.player.queue = l.player.queue ++ l.out := by
  unfold puttingBack
  generalize hout : l.out = ts
  induction ts generalizing l with
  | nil => exact ⟨trivial, id, l, mem_course l _, (List.append_nil _).symm⟩
  | cons t ts ih =>
      have hnext : (l.apply (.requeue t t)).out = ts := by
        show l.out.erase t = ts
        rw [hout, List.erase_cons_head]
      obtain ⟨hlegal, hnone, x, hx, hqueue⟩ := ih (l.apply (.requeue t t)) hnext
      have hmem : t ∈ l.out := by simp [hout]
      refine ⟨⟨hmem, hlegal⟩, not_or.mpr ⟨id, hnone⟩, x, ?_, ?_⟩
      · rw [List.map_cons, course_cons]
        exact List.mem_cons_of_mem l hx
      · rw [hqueue]
        show l.player.queue ++ [t] ++ ts = l.player.queue ++ t :: ts
        rw [List.append_assoc, List.singleton_append]

/-- While threads are only put back, the queue stays within the cap exactly if the player has no
more threads than it may have. -/
theorem queue_puttingBack_le_iff (l : Ledger) :
    (∀ x ∈ l.course l.puttingBack, x.player.queue.length ≤ l.player.settings.maxThreads) ↔
      l.owned ≤ l.player.settings.maxThreads := by
  obtain ⟨hlegal, hnone, x, hx, hqueue⟩ := l.puttingBack_spec
  constructor
  · intro h
    have hall := h x hx
    rwa [hqueue, List.length_append] at hall
  · intro h y hy
    exact Nat.le_trans (Nat.le_add_right _ _) ((owned_le_iff hlegal h).mpr hnone y hy)

/-! ## A player from the start -/

theorem balanced_opened (pid : UInt8) (settings : PlayerSettings) :
    (opened pid settings).Balanced := ⟨rfl, .nil, .nil⟩

theorem settings_of_mem_course {x : Ledger} (hx : x ∈ l.course moves) :
    x.player.settings = l.player.settings := by
  induction moves generalizing l with
  | nil => rw [List.mem_singleton.mp hx]
  | cons m ms ih =>
      rw [course_cons] at hx
      obtain rfl | hx := List.mem_cons.mp hx
      · rfl
      · rw [ih hx, (step_apply l m).settings_eq]

/-- In every sequence of moves in which only threads that are out are put back, threads leave the
queue in the order in which they enter it.  At every moment the player has as many threads as were
spawned, in the queue or outside, and these very threads if they come back unchanged.  The queue
stays within the cap, also when threads that are out are put back, exactly if no thread is spawned
in excess. -/
theorem queue_of_legal (h : (opened pid settings).Legal moves) :
    (∀ l ∈ (opened pid settings).course moves, l.Balanced ∧ l.spawned.length = l.owned ∧
      ((∀ x ∈ l.returned, x.1 = x.2) → l.spawned.Perm (l.player.queue ++ l.out))) ∧
    ((∀ l ∈ (opened pid settings).course moves, ∀ x ∈ l.course l.puttingBack,
        x.player.queue.length ≤ settings.maxThreads) ↔
      ¬(opened pid settings).Oversubscribed moves) := by
  constructor
  · intro l hl
    have hbalanced := (balanced_opened pid settings).of_mem_course h l hl
    exact ⟨hbalanced, hbalanced.length_spawned, hbalanced.perm_of_unchanged⟩
  · rw [← owned_le_iff h (Nat.zero_le settings.maxThreads)]
    refine forall₂_congr fun l hl => ?_
    have hsettings : l.player.settings = settings := settings_of_mem_course hl
    show _ ↔ l.owned ≤ settings.maxThreads
    rw [← hsettings]
    exact l.queue_puttingBack_le_iff

/-- Two threads are spawned, a third is tried, and the first has a turn. -/
def firstTurn : List QueueMove :=
  [.spawn {}, .spawn { ip := 4 }, .spawn { ip := 8 }, .next, .requeue {} { ip := 2 }]

theorem queue_of_legal_firstTurn :
    (opened 1 { maxThreads := 2 }).Legal firstTurn ∧
      ∀ l ∈ (opened 1 { maxThreads := 2 }).course firstTurn,
        l.Balanced ∧ l.player.queue.length ≤ 2 := by
  have hlegal : (opened 1 { maxThreads := 2 }).Legal firstTurn := by decide
  have hnone : ¬(opened 1 { maxThreads := 2 }).Oversubscribed firstTurn := by decide
  obtain ⟨hbalanced, hcap⟩ := queue_of_legal hlegal
  exact ⟨hlegal, fun l hl => ⟨(hbalanced l hl).1, hcap.mpr hnone l hl l (mem_course l _)⟩⟩

/-- A second thread is spawned while the first is out, which then comes back. -/
def spawnedMeanwhile : List QueueMove := [.spawn {}, .next, .spawn { ip := 4 }, .requeue {} {}]

/-- A player who may have one thread has two in its queue. -/
theorem cap_exceeded :
    (opened 1 { maxThreads := 1 }).Legal spawnedMeanwhile ∧
      ∃ l ∈ (opened 1 { maxThreads := 1 }).course spawnedMeanwhile,
        l.player.settings.maxThreads < l.player.queue.length := by
  decide

end Ledger
end Player
end CoreWar
