import CoreWar.Match.Placement
import CoreWar.Proofs.Arena.Writes
import CoreWar.Proofs.Configuration.WellFormed
import CoreWar.Proofs.Random.Draws
import Mathlib.Data.List.FinRange

/-!
# Placement succeeds

Programs are placed one behind the other, so the gaps and sizes of those already
placed say where the next one starts.  No gap is larger than an even share of the
free cells: whatever order and gaps are drawn, the last program ends inside the
arena.  Since no program is empty, every start is an address.

`Laid` says what the setup looks like when some of the programs are placed; one
more program keeps it, and `Placed` is what it says when all of them are.
-/

namespace CoreWar
namespace Configuration

variable {c : Configuration}

/-- The size of the program of a player, by the player's index. -/
def programSize (c : Configuration) (i : Fin c.contestants.length) : Nat :=
  c.contestants[i].program.length

/-- The cells that placed programs take, with the gaps in front of them. -/
def span : List (Placing c) → Nat
  | [] => 0
  | x :: xs => x.gap + c.programSize x.index + span xs

/-- Where the program of a player starts if programs are placed from an offset
on. -/
def startFrom : Nat → List (Placing c) → Fin c.contestants.length → Nat
  | _, [], _ => 0
  | offset, x :: xs, i =>
    if x.index = i then
      offset + x.gap
    else
      startFrom (offset + x.gap + c.programSize x.index) xs i

/-- Where the program of a player starts. -/
def startOf (ps : List (Placing c)) (i : Fin c.contestants.length) : Nat := startFrom 0 ps i

/-- An order and gaps that can be drawn: every player once, and no gap larger
than the largest one. -/
structure Drawable (ps : List (Placing c)) : Prop where
  perm : (ps.map Placing.index).Perm (List.finRange c.contestants.length)
  gap_le : ∀ x ∈ ps, x.gap ≤ c.maxGap

/-! ## Room for all programs -/

theorem span_append (xs ys : List (Placing c)) : span (xs ++ ys) = span xs + span ys := by
  induction xs with
  | nil => simp [span]
  | cons x xs ih =>
      simp only [List.cons_append, span, ih]
      omega

/-- The size of the programs of some players together. -/
def sizeOfAll (indices : List (Fin c.contestants.length)) : Nat :=
  indices.foldr (fun i total => c.programSize i + total) 0

theorem sizeOfAll_finRange : sizeOfAll (List.finRange c.contestants.length) = c.totalSize := by
  have hall : (List.finRange c.contestants.length).map (c.contestants[·]) = c.contestants :=
    List.map_getElem_finRange c.contestants
  unfold totalSize sizeOfAll programSize
  conv => rhs; rw [← hall, List.foldr_map]

theorem sizeOfAll_perm {is js : List (Fin c.contestants.length)} (h : is.Perm js) :
    sizeOfAll is = sizeOfAll js := by
  apply h.foldr_eq'
  intro i _ j _ total
  exact Nat.add_left_comm _ _ _

theorem span_le {most : Nat} {ps : List (Placing c)} (h : ∀ x ∈ ps, x.gap ≤ most) :
    span ps ≤ ps.length * most + sizeOfAll (ps.map Placing.index) := by
  induction ps with
  | nil => simp [span]
  | cons x xs ih =>
      have hx := h x (by simp)
      have hxs := ih fun y hy => h y (by simp [hy])
      simp only [span, List.length_cons, List.map_cons, sizeOfAll, List.foldr_cons,
        Nat.succ_mul] at hxs ⊢
      omega

/-- Whatever is drawn, the programs end inside the arena. -/
theorem Drawable.span_le_size {ps : List (Placing c)} (hps : Drawable ps) (hc : c.WellFormed) :
    span ps ≤ Arena.size := by
  have hlength : ps.length = c.contestants.length := by
    rw [← List.length_map (f := Placing.index), hps.perm.length_eq, List.length_finRange]
  have hshare : c.contestants.length * c.maxGap ≤ Arena.size - c.totalSize :=
    Nat.mul_div_le _ _
  have hspan := span_le hps.gap_le
  rw [sizeOfAll_perm hps.perm, sizeOfAll_finRange, hlength] at hspan
  have htotal := hc.totalSize_le
  omega

/-! ## Where programs start -/

theorem startFrom_append {offset : Nat} {done rest : List (Placing c)} {x : Placing c}
    (h : x.index ∉ done.map Placing.index) :
    startFrom offset (done ++ x :: rest) x.index = offset + span done + x.gap := by
  induction done generalizing offset with
  | nil => simp [startFrom, span]
  | cons y ys ih =>
      rw [List.map_cons, List.mem_cons, not_or] at h
      have hne : y.index ≠ x.index := fun e => h.1 e.symm
      rw [List.cons_append, startFrom, if_neg hne, ih h.2, span]
      omega

variable {ps done rest : List (Placing c)} {x : Placing c}

theorem not_mem_of_split (hps : Drawable ps) (hsplit : ps = done ++ x :: rest) :
    x.index ∉ done.map Placing.index := by
  have hnodup : (ps.map Placing.index).Nodup :=
    hps.perm.nodup_iff.mpr (List.nodup_finRange _)
  rw [hsplit, List.map_append, List.map_cons] at hnodup
  intro hmem
  exact (List.nodup_append.mp hnodup).2.2 _ hmem _ List.mem_cons_self rfl

theorem startOf_eq (hps : Drawable ps) (hsplit : ps = done ++ x :: rest) :
    startOf ps x.index = span done + x.gap := by
  rw [startOf, hsplit, startFrom_append (not_mem_of_split hps hsplit), Nat.zero_add]

/-- A program ends inside the arena and is not empty. -/
theorem startOf_add_size_le (hc : c.WellFormed) (hps : Drawable ps)
    (hsplit : ps = done ++ x :: rest) :
    startOf ps x.index + c.programSize x.index ≤ Arena.size ∧ 0 < c.programSize x.index := by
  have hroom := hps.span_le_size hc
  have hstart := startOf_eq hps hsplit
  have hne : c.contestants[x.index].program ≠ [] :=
    hc.program_ne_nil _ (List.getElem_mem _)
  have hpos : 0 < c.programSize x.index := List.length_pos_iff.mpr hne
  rw [hsplit, span_append, span] at hroom
  exact ⟨by omega, hpos⟩

/-- So every start is an address. -/
theorem toNat_startOf (hc : c.WellFormed) (hps : Drawable ps) (hsplit : ps = done ++ x :: rest) :
    (UInt16.ofNat (startOf ps x.index)).toNat = startOf ps x.index := by
  obtain ⟨hinside, hpos⟩ := startOf_add_size_le hc hps hsplit
  have hsize : Arena.size = 65536 := rfl
  rw [UInt16.toNat_ofNat']
  omega

/-- And the program can be loaded there. -/
theorem toNat_startOf_add_le (hc : c.WellFormed) (hps : Drawable ps)
    (hsplit : ps = done ++ x :: rest) :
    (UInt16.ofNat (startOf ps x.index)).toNat + c.programSize x.index ≤ Arena.size := by
  rw [toNat_startOf hc hps hsplit]
  exact (startOf_add_size_le hc hps hsplit).1

/-! ## One program after another -/

/-- The number of the player with an index. -/
def pidOf (i : Fin c.contestants.length) : UInt8 := UInt8.ofNat (i.val + 1)

/-- A player before its program is placed. -/
def waiting (c : Configuration) (i : Fin c.contestants.length) : Player where
  pid := pidOf i
  settings := c.contestants[i].settings

/-- A player whose program is placed: one thread waits at the start of it. -/
def entered (c : Configuration) (i : Fin c.contestants.length) (start : Nat) : Player where
  pid := pidOf i
  settings := c.contestants[i].settings
  queue := [{ ip := UInt16.ofNat start }]

/-- The setup in which the first of some programs are placed. -/
structure Laid (ps done : List (Placing c)) (s : Setup) : Prop where
  offset : s.offset = span done
  size_players : s.players.size = c.contestants.length
  size_starts : s.starts.size = c.contestants.length
  waiting : ∀ i ∉ done.map Placing.index, s.players[i.val]? = some (c.waiting i)
  entered : ∀ i ∈ done.map Placing.index, s.players[i.val]? = some (c.entered i (startOf ps i))
  starts : ∀ i ∈ done.map Placing.index, s.starts[i.val]? = some (UInt16.ofNat (startOf ps i))
  below : ∀ i ∈ done.map Placing.index, startOf ps i + c.programSize i ≤ span done
  apart : ∀ i ∈ done.map Placing.index, ∀ j ∈ done.map Placing.index, i ≠ j →
    startOf ps i + c.programSize i ≤ startOf ps j ∨ startOf ps j + c.programSize j ≤ startOf ps i
  program : ∀ i ∈ done.map Placing.index, ∀ k, ∀ hk : k < c.contestants[i].program.length,
    s.arena.cell (UInt16.ofNat (startOf ps i + k)) = ⟨c.contestants[i].program[k], pidOf i⟩
  blank : ∀ a : UInt16, (∀ i ∈ done.map Placing.index,
    a.toNat < startOf ps i ∨ startOf ps i + c.programSize i ≤ a.toNat) → s.arena.cell a = {}

theorem laid_setup (ps : List (Placing c)) : Laid ps [] c.setup where
  offset := rfl
  size_players := by simp [setup]
  size_starts := by simp [setup]
  waiting := by
    intro i _
    simp [setup, Configuration.waiting, pidOf, Nat.add_comm]
  entered := by simp
  starts := by simp
  below := by simp
  apart := by simp
  program := by simp
  blank := by
    intro a _
    exact Arena.cell_empty a

theorem forall_mem_snoc {P : Fin c.contestants.length → Prop} :
    (∀ i ∈ (done ++ [x]).map Placing.index, P i) ↔
      (∀ i ∈ done.map Placing.index, P i) ∧ P x.index := by
  simp only [List.map_append, List.map_cons, List.map_nil, List.mem_append, List.mem_singleton,
    or_imp, forall_and, forall_eq]

/-- The setup after one more program is placed where it should start. -/
def placed (s : Setup) (ps : List (Placing c)) (i : Fin c.contestants.length) : Setup where
  arena := s.arena.writeBytes (UInt16.ofNat (startOf ps i)) (pidOf i) c.contestants[i].program
  players := s.players.setIfInBounds i (c.entered i (startOf ps i))
  starts := s.starts.setIfInBounds i (UInt16.ofNat (startOf ps i))
  offset := startOf ps i + c.programSize i

/-- The next program can be loaded, and its player can have a thread. -/
theorem place_eq (hc : c.WellFormed) (hps : Drawable ps) (hsplit : ps = done ++ x :: rest)
    {s : Setup} (h : Laid ps done s) : c.place s x = .ok (placed s ps x.index) := by
  obtain ⟨arena, players, starts, offset⟩ := s
  have hoffset : offset + x.gap = startOf ps x.index := by
    rw [startOf_eq hps hsplit]
    exact congrArg (· + x.gap) h.offset
  have hplayer : players[x.index.val]? = some (c.waiting x.index) :=
    h.waiting _ (not_mem_of_split hps hsplit)
  have hspawn : (c.waiting x.index).spawn? { ip := UInt16.ofNat (startOf ps x.index) }
      = some (c.entered x.index (startOf ps x.index)) :=
    if_pos (hc.threads_pos _ (List.getElem_mem _))
  simp only [place, hoffset]
  rw [Arena.load_of_le (toNat_startOf_add_le hc hps hsplit)]
  dsimp only
  rw [hplayer, Option.bind_some, hspawn]
  rfl

/-- A placed program leaves the cells before and behind it alone. -/
theorem cell_placed_of_outside (hc : c.WellFormed) (hps : Drawable ps)
    (hsplit : ps = done ++ x :: rest) (s : Setup) {a : UInt16}
    (h : a.toNat < startOf ps x.index ∨ startOf ps x.index + c.programSize x.index ≤ a.toNat) :
    (placed s ps x.index).arena.cell a = s.arena.cell a := by
  rw [← toNat_startOf hc hps hsplit] at h
  exact Arena.cell_writeBytes_of_outside (toNat_startOf_add_le hc hps hsplit) h

/-- One more placed program keeps what is known of the others. -/
theorem laid_placed (hc : c.WellFormed) (hps : Drawable ps) (hsplit : ps = done ++ x :: rest)
    {s : Setup} (h : Laid ps done s) : Laid ps (done ++ [x]) (placed s ps x.index) := by
  have hnew := not_mem_of_split hps hsplit
  have hstart := startOf_eq hps hsplit
  have hspan : span (done ++ [x]) = startOf ps x.index + c.programSize x.index := by
    rw [span_append, hstart, span, span]
    omega
  have hother : ∀ i ∈ done.map Placing.index, x.index.val ≠ i.val := by
    intro i hi e
    exact hnew (Fin.ext e ▸ hi)
  -- The programs placed before end where the gap in front of the new one begins.
  have hbefore : ∀ i ∈ done.map Placing.index,
      startOf ps i + c.programSize i ≤ startOf ps x.index := by
    intro i hi
    have := h.below i hi
    omega
  exact
    { offset := hspan.symm
      size_players := by
        rw [placed, Array.size_setIfInBounds, h.size_players]
      size_starts := by
        rw [placed, Array.size_setIfInBounds, h.size_starts]
      waiting := by
        intro i hi
        have hsplit : i ∉ done.map Placing.index ∧ i ≠ x.index := by
          simpa [not_or] using hi
        have hne : x.index.val ≠ i.val := fun e => hsplit.2 (Fin.ext e.symm)
        rw [placed, Array.getElem?_setIfInBounds_ne hne]
        exact h.waiting i hsplit.1
      entered := by
        rw [forall_mem_snoc]
        constructor
        · intro i hi
          rw [placed, Array.getElem?_setIfInBounds_ne (hother i hi)]
          exact h.entered i hi
        · apply Array.getElem?_setIfInBounds_self_of_lt
          rw [h.size_players]
          exact x.index.isLt
      starts := by
        rw [forall_mem_snoc]
        constructor
        · intro i hi
          rw [placed, Array.getElem?_setIfInBounds_ne (hother i hi)]
          exact h.starts i hi
        · apply Array.getElem?_setIfInBounds_self_of_lt
          rw [h.size_starts]
          exact x.index.isLt
      below := by
        rw [forall_mem_snoc, hspan]
        constructor
        · intro i hi
          exact Nat.le_trans (hbefore i hi) (Nat.le_add_right _ _)
        · exact Nat.le_refl _
      apart := by
        rw [forall_mem_snoc]
        constructor
        · intro i hi
          rw [forall_mem_snoc]
          exact ⟨h.apart i hi, fun _ => .inl (hbefore i hi)⟩
        · rw [forall_mem_snoc]
          exact ⟨fun i hi _ => .inr (hbefore i hi), fun hne => absurd rfl hne⟩
      program := by
        rw [forall_mem_snoc]
        constructor
        · intro i hi k hk
          have hend := hbefore i hi
          have hinside := (startOf_add_size_le hc hps hsplit).1
          have hk' : k < c.programSize i := hk
          have hsize : Arena.size = 65536 := rfl
          have hcell : (UInt16.ofNat (startOf ps i + k)).toNat = startOf ps i + k := by
            rw [UInt16.toNat_ofNat']
            omega
          have hfree : (UInt16.ofNat (startOf ps i + k)).toNat < startOf ps x.index := by omega
          rw [cell_placed_of_outside hc hps hsplit s (.inl hfree)]
          exact h.program i hi k hk
        · intro k hk
          have hload := toNat_startOf_add_le hc hps hsplit
          have hcell : (placed s ps x.index).arena.cell
              (UInt16.ofNat ((UInt16.ofNat (startOf ps x.index)).toNat + k)) =
                ⟨c.contestants[x.index].program[k], pidOf x.index⟩ :=
            Arena.cell_writeBytes_of_inside hload hk
          rw [toNat_startOf hc hps hsplit] at hcell
          exact hcell
      blank := by
        intro a ha
        rw [forall_mem_snoc] at ha
        rw [cell_placed_of_outside hc hps hsplit s ha.2]
        exact h.blank a ha.1 }

/-- Placing the programs that are left succeeds. -/
theorem foldlM_place (hc : c.WellFormed) (hps : Drawable ps) (hsplit : ps = done ++ rest)
    {s : Setup} (h : Laid ps done s) : ∃ s', rest.foldlM c.place s = .ok s' ∧ Laid ps ps s' := by
  induction rest generalizing done s with
  | nil =>
      rw [List.append_nil] at hsplit
      exact ⟨s, rfl, hsplit ▸ h⟩
  | cons x xs ih =>
      have hsplit' : ps = (done ++ [x]) ++ xs := by
        rw [hsplit, List.append_assoc, List.singleton_append]
      obtain ⟨s', hfold, hlaid⟩ := ih hsplit' (laid_placed hc hps hsplit h)
      refine ⟨s', ?_, hlaid⟩
      rw [List.foldlM_cons, place_eq hc hps hsplit h]
      exact hfold

/-! ## The placed game -/

/-- A game in which all programs are placed.  They lie apart from each other and
do not run around the end of the arena; their cells hold their bytes and belong
to their players, all other cells are blank; every player has one thread, at the
start of its program. -/
structure Placed (ps : List (Placing c)) (g : Game) : Prop where
  start : ∀ done x rest, ps = done ++ x :: rest → startOf ps x.index = span done + x.gap
  toNat_start : ∀ i, (UInt16.ofNat (startOf ps i)).toNat = startOf ps i
  toNat_pid : ∀ i : Fin c.contestants.length, (pidOf i).toNat = i.val + 1
  inside : ∀ i, startOf ps i + c.programSize i ≤ Arena.size
  apart : ∀ i j, i ≠ j →
    startOf ps i + c.programSize i ≤ startOf ps j ∨ startOf ps j + c.programSize j ≤ startOf ps i
  program : ∀ i k, ∀ hk : k < c.contestants[i].program.length,
    g.arena.cell (UInt16.ofNat (startOf ps i + k)) = ⟨c.contestants[i].program[k], pidOf i⟩
  blank : ∀ a : UInt16,
    (∀ i, a.toNat < startOf ps i ∨ startOf ps i + c.programSize i ≤ a.toNat) →
      g.arena.cell a = {}
  starts : g.starts =
    (List.finRange c.contestants.length).map fun i => UInt16.ofNat (startOf ps i)
  players : g.players.toList =
    (List.finRange c.contestants.length).map fun i => c.entered i (startOf ps i)
  rules : g.rules = c.rules
  cycle : g.cycle = 0
  alive : g.alive = c.contestants.length
  finished : g.finished = false

theorem toList_eq_map_finRange {α : Type} {xs : Array α} {n : Nat} {f : Fin n → α}
    (hsize : xs.size = n) (h : ∀ i : Fin n, xs[i.val]? = some (f i)) :
    xs.toList = (List.finRange n).map f := by
  apply List.ext_getElem?
  intro k
  rw [Array.getElem?_toList]
  by_cases hk : k < n
  · rw [h ⟨k, hk⟩, List.getElem?_map, List.getElem?_eq_getElem (by simpa using hk)]
    simp
  · rw [Array.getElem?_eq_none (by omega), List.getElem?_eq_none (by simpa using hk)]

/-- Whatever order and gaps are drawn, the programs can be placed. -/
theorem gameOf_placed (hc : c.WellFormed) (hps : Drawable ps) :
    ∃ g, c.gameOf ps = .ok g ∧ Placed ps g := by
  obtain ⟨s, hfold, hlaid⟩ := foldlM_place hc hps (List.nil_append ps).symm (laid_setup ps)
  have hmem : ∀ i, i ∈ ps.map Placing.index := by
    intro i
    exact hps.perm.mem_iff.mpr (List.mem_finRange i)
  have hsplit : ∀ i, ∃ done x rest, ps = done ++ x :: rest ∧ x.index = i := by
    intro i
    obtain ⟨x, hx, hi⟩ := List.mem_map.mp (hmem i)
    obtain ⟨done, rest, h⟩ := List.append_of_mem hx
    exact ⟨done, x, rest, h, hi⟩
  refine ⟨⟨c.rules, s.arena, s.players, s.starts.toList, 0, s.players.size, false⟩, ?_, ?_⟩
  · rw [gameOf, hfold]
  · exact
      { start := fun _ _ _ => startOf_eq hps
        toNat_start := by
          intro i
          obtain ⟨done, x, rest, h, rfl⟩ := hsplit i
          exact toNat_startOf hc hps h
        toNat_pid := by
          intro i
          have hle := hc.players_le
          rw [pidOf, UInt8.toNat_ofNat']
          omega
        inside := by
          intro i
          obtain ⟨done, x, rest, h, rfl⟩ := hsplit i
          exact (startOf_add_size_le hc hps h).1
        apart := fun i j => hlaid.apart i (hmem i) j (hmem j)
        program := fun i => hlaid.program i (hmem i)
        blank := fun a ha => hlaid.blank a fun i _ => ha i
        starts := toList_eq_map_finRange hlaid.size_starts fun i => hlaid.starts i (hmem i)
        players := toList_eq_map_finRange hlaid.size_players fun i => hlaid.entered i (hmem i)
        rules := rfl
        cycle := rfl
        alive := hlaid.size_players
        finished := rfl }

/-- A game that has not been played yet: the programs are in place, but the arena
may have been patched since. -/
def Fresh (c : Configuration) (g : Game) : Prop :=
  ∃ (ps : List (Placing c)) (g₀ : Game) (m : Arena),
    Drawable ps ∧ c.gameOf ps = .ok g₀ ∧ g = { g₀ with arena := m }

/-- The game that has not been played yet, with programs placed in a given way and an
arena that may have been patched. -/
def initial (c : Configuration) (ps : List (Placing c)) (m : Arena) : Game where
  rules := c.rules
  arena := m
  players :=
    ((List.finRange c.contestants.length).map fun i => c.entered i (startOf ps i)).toArray
  starts := (List.finRange c.contestants.length).map fun i => UInt16.ofNat (startOf ps i)
  alive := c.contestants.length

/-- Only the way the programs are placed and the arena are left open. -/
theorem fresh_iff {g : Game} (hc : c.WellFormed) :
    c.Fresh g ↔ ∃ (ps : List (Placing c)) (m : Arena), Drawable ps ∧ g = c.initial ps m := by
  have hpatch : ∀ {ps : List (Placing c)} {g₀ : Game} (m : Arena), Drawable ps →
      c.gameOf ps = .ok g₀ → { g₀ with arena := m } = c.initial ps m := by
    intro ps g₀ m hps hg₀
    obtain ⟨g₁, hg₁, hplaced⟩ := gameOf_placed hc hps
    rw [hg₀] at hg₁
    cases hg₁
    have hplayers : g₀.players = (c.initial ps m).players := Array.toList_inj.mp hplaced.players
    rw [hplaced.rules, hplayers, hplaced.starts, hplaced.cycle, hplaced.alive, hplaced.finished]
    rfl
  constructor
  · rintro ⟨ps, g₀, m, hps, hg₀, rfl⟩
    exact ⟨ps, m, hps, hpatch m hps hg₀⟩
  · rintro ⟨ps, m, hps, rfl⟩
    obtain ⟨g₀, hg₀, -⟩ := gameOf_placed hc hps
    exact ⟨ps, g₀, m, hps, hg₀, (hpatch m hps hg₀).symm⟩

/-- Patches leave everything but the arena in place. -/
theorem Fresh.spec {g : Game} (hg : c.Fresh g) (hc : c.WellFormed) :
    g.rules = c.rules ∧ g.cycle = 0 ∧ g.alive = c.contestants.length ∧
      ∃ start : Fin c.contestants.length → Nat,
        g.players.toList = (List.finRange c.contestants.length).map fun i =>
          c.entered i (start i) := by
  obtain ⟨ps, m, -, rfl⟩ := (fresh_iff hc).mp hg
  exact ⟨rfl, rfl, rfl, startOf ps, rfl⟩

theorem Fresh.size_eq {g : Game} (hg : c.Fresh g) (hc : c.WellFormed) :
    g.players.size = c.contestants.length := by
  obtain ⟨-, -, -, start, hplayers⟩ := hg.spec hc
  rw [← Array.length_toList, hplayers, List.length_map, List.length_finRange]

/-- Owned cells are not credited before a match has been played. -/
theorem Fresh.finished_eq {g : Game} (hg : c.Fresh g) (hc : c.WellFormed) :
    g.finished = false := by
  obtain ⟨ps, m, -, rfl⟩ := (fresh_iff hc).mp hg
  rfl

/-- What is drawn is an order and gaps. -/
theorem drawable_of_drawPlacings {σ : Type} [Random.Source σ] {s s' : σ}
    (h : c.drawPlacings s = some (ps, s')) : Drawable ps := by
  obtain ⟨order, t, horder, hgaps⟩ := Random.bind_eq_some.mp h
  constructor
  · have hindices : ps.map Placing.index = order := by
      refine Random.map_eq_of_mapM_eq_some (fun i u x u' hx => ?_) hgaps
      obtain ⟨gap, w, -, hx⟩ := Random.bind_eq_some.mp hx
      cases hx
      rfl
    rw [hindices]
    exact Random.shuffle_perm horder
  · refine Random.forall_mem_of_mapM_eq_some (fun i u x u' hx => ?_) hgaps
    obtain ⟨gap, w, hgap, hx⟩ := Random.bind_eq_some.mp hx
    cases hx
    exact Nat.lt_succ_iff.mp (Random.below64_lt hgap)

/-- Where a source supplies numbers, an order and gaps can be drawn from it. -/
theorem ends_drawPlacings {σ : Type} [Random.Source σ] {good : σ → Prop}
    (h : Random.Supplies good) : Random.Ends good c.drawPlacings := by
  refine (h.shuffle _).bind fun order => .mapM (fun index => ?_) order
  exact (h.below64 _ (Nat.succ_pos _)).bind fun gap => .pure _

/-- The game has its programs where they were drawn to be. -/
theorem newGame_of_drawPlacings {σ : Type} [Random.Source σ] {source source' : σ}
    (hc : c.WellFormed) (h : c.drawPlacings source = some (ps, source')) :
    Drawable ps ∧ ∃ g, c.newGame source = .ok g ∧ Placed ps g := by
  have hps := drawable_of_drawPlacings h
  rw [newGame, h]
  exact ⟨hps, gameOf_placed hc hps⟩

/-- Every accepted configuration makes a game with its programs in place, in
whatever order and with whatever gaps they are placed.  What is drawn from a
source is such an order and such gaps, and the game has its programs there; and
if the source supplies numbers, then something is drawn. -/
theorem newGame_placed (hc : c.Accepted) :
    c.totalSize ≤ Arena.size ∧ 0 < c.contestants.length ∧
      (∀ ps : List (Placing c), Drawable ps → ∃ g, c.gameOf ps = .ok g ∧ Placed ps g) ∧
      ∀ (σ : Type) [Random.Source σ] (source : σ),
        (∀ (ps : List (Placing c)) (source' : σ), c.drawPlacings source = some (ps, source') →
          Drawable ps ∧ ∃ g, c.newGame source = .ok g ∧ Placed ps g) ∧
        ∀ good : σ → Prop, Random.Supplies good → good source →
          ∃ (ps : List (Placing c)) (source' : σ) (g : Game),
            c.drawPlacings source = some (ps, source') ∧ c.newGame source = .ok g ∧
              Placed ps g := by
  have hwell := hc.wellFormed
  refine ⟨hwell.totalSize_le, hwell.players_pos, fun ps => gameOf_placed hwell, ?_⟩
  intro σ _ source
  refine ⟨fun ps source' => newGame_of_drawPlacings hwell, fun good hsupplies hgood => ?_⟩
  obtain ⟨ps, source', hdraw, -⟩ := ends_drawPlacings (c := c) hsupplies source hgood
  obtain ⟨-, g, hg, hplaced⟩ := newGame_of_drawPlacings hwell hdraw
  exact ⟨ps, source', g, hdraw, hg, hplaced⟩

/-- The first player of the duel. -/
def duelFirst : Fin duel.contestants.length := ⟨0, by decide⟩

/-- The second player of the duel. -/
def duelSecond : Fin duel.contestants.length := ⟨1, by decide⟩

/-- A way to place the programs of the duel: the second player first, and the
last program behind the largest gap. -/
def duelPlacings : List (Placing duel) := [⟨duelSecond, 5⟩, ⟨duelFirst, 32765⟩]

theorem drawable_duelPlacings : Drawable duelPlacings := ⟨by decide, by decide⟩

/-- A counting source whose gaps for the duel are a quarter and a half of the
largest one. -/
def quarters : Random.Counter := ⟨0, 0x4000000000000000⟩

/-- What is drawn from that source for the duel. -/
def quarterPlacings : List (Placing duel) := [⟨duelSecond, 8191⟩, ⟨duelFirst, 16383⟩]

/-- The game of the duel, from a source that is known to give an order and gaps, and from one that
is only known to supply numbers. -/
theorem newGame_placed_duel :
    duel.Accepted ∧
      duel.drawPlacings quarters = some (quarterPlacings, ⟨0xC000000000000000, quarters.step⟩) ∧
      Drawable quarterPlacings ∧ Drawable duelPlacings ∧
      (∃ g, duel.newGame quarters = .ok g ∧ Placed quarterPlacings g) ∧
      (∃ g, duel.gameOf duelPlacings = .ok g ∧ Placed duelPlacings g) ∧
      ∃ (ps : List (Placing duel)) (g : Game),
        duel.newGame (⟨0, 0⟩ : Random.Counter) = .ok g ∧ Placed ps g := by
  have hdraw : duel.drawPlacings quarters =
      some (quarterPlacings, ⟨0xC000000000000000, quarters.step⟩) := rfl
  obtain ⟨-, -, hplaced, hdrawn⟩ := newGame_placed accepted_duel
  obtain ⟨hps, hgame⟩ := (hdrawn Random.Counter quarters).1 _ _ hdraw
  obtain ⟨ps, -, g, -, hg, hzero⟩ := (hdrawn Random.Counter ⟨0, 0⟩).2 _ Random.supplies_zero rfl
  exact ⟨accepted_duel, hdraw, hps, drawable_duelPlacings, hgame,
    hplaced duelPlacings drawable_duelPlacings, ps, g, hg, hzero⟩

end Configuration
end CoreWar
