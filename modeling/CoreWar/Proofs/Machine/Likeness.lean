import CoreWar.Proofs.Machine.Effect
import CoreWar.Proofs.Machine.Faults

/-!
# Machines that run alike

Two machines stand at instructions with the same bytes, perhaps at a distance from
each other, and the cells of their arenas answer to each other in some way.  If the
cells that the first step looks at carry the same bytes on both sides, then both
machines do the same: the second run is the first one moved by the distance.

A `Likeness` says what it means for cells to answer to each other and which cells
carry the same bytes.  The simulation is proved for any likeness: first of reads and
writes, then of the operations, and last of the step (`Likeness.matches_step`).  The
cells that a step looks at are its footprint.  If the distance is not zero, the
instruction must not show where it stands (`Instruction.IsRelocatable`).
-/

namespace CoreWar

theorem Word.add_right_comm (a b c : UInt16) : a + b + c = a + c + b := by
  rw [UInt16.add_assoc, UInt16.add_comm b c, UInt16.add_assoc]

/-! ## Instructions that can be moved -/

/-- Whether an operation looks at an operand. -/
def Opcode.uses (op : Opcode) : Position → Bool
  | .destination => decide (1 ≤ op.arity)
  | .source => decide (op.arity = 2)

/-- Whether the operand lies at an address that a register or a word holds. -/
def Location.isPointer : Location → Bool
  | pax | pbx | pcx | pimd => true
  | _ => false

/-- An instruction that names no address: it does not read the instruction pointer,
and it takes pointers and targets as distances from itself. -/
structure Instruction.IsRelocatable (i : Instruction) : Prop where
  ne_ip : ∀ p, i.opcode.uses p = true → i.location p ≠ .ip
  mode_eq : ∀ p, i.opcode.uses p = true → (i.location p).isPointer = true → i.mode p = .relative
  jump : i.opcode.isJump = true → i.dstMode = .relative

/-! ## Footprints -/

namespace Machine

/-- The two cells from the address of an operand in memory on. -/
def operandCells (m : Machine) (i : Instruction) (p : Position) : List UInt16 :=
  match i.opcode.uses p, m.storage i p with
  | true, .ok (.memory x) => [x, x + 1]
  | _, _ => []

/-- The cells that an instruction at the instruction pointer can look at: its own
bytes and the operands that it uses. -/
def reach (m : Machine) (i : Instruction) : List UInt16 :=
  (List.range i.size.toNat).map (m.thread.ip + UInt16.ofNat ·) ++
    (m.operandCells i .destination ++ m.operandCells i .source)

/-- The cells that the next step can look at. -/
def footprint (m : Machine) : List UInt16 := m.reach (m.arena.decode m.thread.ip)

variable {m n : Machine} {i : Instruction} {p : Position} {s a b : Storage}

theorem mem_reach_of_lt {k : Nat} (h : k < i.size.toNat) :
    m.thread.ip + UInt16.ofNat k ∈ m.reach i := by
  apply List.mem_append_left
  exact List.mem_map.mpr ⟨k, List.mem_range.mpr h, rfl⟩

theorem ip_mem_reach : m.thread.ip ∈ m.reach i := by
  have hlt : 0 < i.size.toNat := by
    rw [i.toNat_size]
    omega
  have hmem : m.thread.ip + 0 ∈ m.reach i := mem_reach_of_lt hlt
  rwa [UInt16.add_zero] at hmem

theorem ip_succ_mem_reach : m.thread.ip + 1 ∈ m.reach i := by
  have hlt : 1 < i.size.toNat := by
    rw [i.toNat_size]
    omega
  exact mem_reach_of_lt hlt

/-- The word that belongs to an operand lies inside the instruction. -/
theorem immediateAddress_mem_reach (h : (i.location p).hasImmediate = true) :
    Arena.immediateAddress i m.thread.ip p ∈ m.reach i ∧
      Arena.immediateAddress i m.thread.ip p + 1 ∈ m.reach i := by
  have hoffset : ∃ k : Nat, i.immediateOffset p = UInt16.ofNat k ∧ k + 1 < i.size.toNat := by
    rw [i.toNat_size, Instruction.immediateCount]
    cases p with
    | destination =>
        have hdst : i.dst.hasImmediate = true := h
        refine ⟨2, rfl, ?_⟩
        rw [hdst, Bool.toNat_true]
        omega
    | source =>
        have hsrc : i.src.hasImmediate = true := h
        rw [hsrc, Bool.toNat_true, Instruction.immediateOffset]
        by_cases hdst : i.dst.hasImmediate = true
        · refine ⟨4, if_pos hdst, ?_⟩
          rw [hdst, Bool.toNat_true]
          omega
        · refine ⟨2, if_neg hdst, ?_⟩
          omega
  obtain ⟨k, hk, hlt⟩ := hoffset
  have hnext : m.thread.ip + UInt16.ofNat k + 1 = m.thread.ip + UInt16.ofNat (k + 1) := by
    rw [UInt16.add_assoc, UInt16.ofNat_add]
    rfl
  rw [Arena.immediateAddress, hk, hnext]
  exact ⟨mem_reach_of_lt (by omega), mem_reach_of_lt hlt⟩

theorem hasImmediate_of_storage {x : UInt16} (h : m.storage i p = .ok (.immediate x)) :
    (i.location p).hasImmediate = true ∧ x = Arena.immediateAddress i m.thread.ip p := by
  unfold storage at h
  dsimp only at h
  cases hlocation : i.location p with
  | imd =>
      rw [hlocation] at h
      cases h
      exact ⟨rfl, rfl⟩
  | _ =>
      rw [hlocation] at h
      cases h

theorem operandCells_subset_reach {x : UInt16} (h : x ∈ m.operandCells i p) : x ∈ m.reach i := by
  apply List.mem_append_right
  cases p with
  | destination => exact List.mem_append_left _ h
  | source => exact List.mem_append_right _ h

/-- An operand that is used lies in the reach of the instruction. -/
theorem cells_subset_reach (huse : i.opcode.uses p = true) (h : m.storage i p = .ok s) :
    ∀ x ∈ s.cells .word, x ∈ m.reach i := by
  intro x hx
  cases s with
  | register r part => cases hx
  | immediate y =>
      obtain ⟨himmediate, rfl⟩ := hasImmediate_of_storage h
      have hreach := immediateAddress_mem_reach (m := m) himmediate
      obtain rfl | hx := List.mem_cons.mp hx
      · exact hreach.1
      · rw [List.mem_singleton.mp hx]
        exact hreach.2
  | memory y =>
      apply operandCells_subset_reach (p := p)
      rw [operandCells, huse, h]
      exact hx

end Machine

/-! ## Moved threads and storages -/

namespace Thread

variable (t : Thread) (k : UInt16)

@[simp] theorem advance_zero : t.advance 0 = t := by
  rw [advance, UInt16.add_zero]

theorem advance_advance (j : UInt16) : (t.advance j).advance k = (t.advance k).advance j := by
  unfold advance
  dsimp only
  rw [Word.add_right_comm]

theorem get_advance {r : Register} (h : r ≠ .ip) : (t.advance k).get r = t.get r := by
  cases r with
  | ip => exact absurd rfl h
  | _ => rfl

theorem set_advance {r : Register} (h : r ≠ .ip) (v : UInt16) :
    (t.advance k).set r v = (t.set r v).advance k := by
  cases r with
  | ip => exact absurd rfl h
  | _ => rfl

end Thread

namespace Storage

/-- A storage with its address moved by a distance. -/
def moved (k : UInt16) : Storage → Storage
  | register r part => register r part
  | immediate a => immediate (a + k)
  | memory a => memory (a + k)

variable (k : UInt16) (s a b : Storage)

@[simp] theorem width_moved : (s.moved k).width = s.width := by
  cases s <;> rfl

@[simp] theorem isReadOnly_moved : (s.moved k).isReadOnly = s.isReadOnly := by
  cases s <;> rfl

@[simp] theorem operationWidth_moved :
    operationWidth (a.moved k) (b.moved k) = operationWidth a b := by
  cases a <;> cases b <;> rfl

theorem ne_ip_of_isReadOnly {r : Register} {part : Part}
    (h : (register r part).isReadOnly = false) : r ≠ .ip := by
  rintro rfl
  cases h

end Storage

namespace Alu

/-- A product does not depend on where the thread is. -/
theorem multiply_advance (s : Signedness) (w : Width) (v : UInt16) (t : Thread) (k : UInt16) :
    multiply s w v (t.advance k) = (multiply s w v t).advance k := by
  have hax : (t.advance k).ax = t.ax := rfl
  unfold multiply
  cases w with
  | byte =>
      simp only [hax]
      split <;> rfl
  | word =>
      simp only [hax]
      split <;> rfl

theorem divide?_advance (s : Signedness) (w : Width) (v : UInt16) (t : Thread) (k : UInt16) :
    divide? s w v (t.advance k) = (divide? s w v t).map (·.advance k) := by
  unfold divide?
  by_cases hv : v = 0
  · rw [if_pos hv, if_pos hv, Option.map_none]
  · rw [if_neg hv, if_neg hv]
    cases w with
    | byte => rfl
    | word => rfl

end Alu

/-! ## Likenesses -/

/-- A way in which the cells of one arena answer to those of another, at a distance.
Cells in use carry the same bytes, and cells that are the same answer to each other. -/
structure Likeness where
  distance : UInt16
  InUse : UInt16 → Prop
  Alike : UInt16 → Cell → Cell → Prop
  alike_refl : ∀ {x : UInt16} (c : Cell), InUse x → Alike x c c
  byte_eq : ∀ {x : UInt16} {c d : Cell}, InUse x → Alike x c d → d.byte = c.byte

namespace Likeness

variable (r : Likeness)

/-- Two machines whose threads stand at the distance and whose cells answer to each
other. -/
structure Relates (m n : Machine) : Prop where
  thread_eq : n.thread = m.thread.advance r.distance
  pid_eq : n.pid = m.pid
  alike : ∀ x, r.Alike x (m.arena.cell x) (n.arena.cell (x + r.distance))

/-- Two outcomes with the same result that leave related machines behind. -/
structure Matches {α : Type} (o o' : Outcome α) : Prop where
  machine : r.Relates o.machine o'.machine
  result_eq : o'.result = o.result

/-- A storage whose cells are in use.  The instruction pointer tells the machines
apart as soon as they are at a distance. -/
structure Covers (s : Storage) : Prop where
  inUse : ∀ x ∈ s.cells .word, r.InUse x
  fixed : r.distance = 0 ∨ s.isReadOnly = false

variable {r} {m n : Machine} {i : Instruction} {p : Position} {s a b : Storage}

/-- Without a distance the threads are the same. -/
theorem relates_iff_of_distance_eq_zero (hzero : r.distance = 0) :
    r.Relates m n ↔ n.thread = m.thread ∧ n.pid = m.pid ∧
      ∀ x, r.Alike x (m.arena.cell x) (n.arena.cell x) := by
  constructor
  · rintro ⟨hthread, hpid, halike⟩
    simp only [hzero, UInt16.add_zero, Thread.advance_zero] at hthread halike
    exact ⟨hthread, hpid, halike⟩
  · rintro ⟨hthread, hpid, halike⟩
    constructor
    · rw [hzero, Thread.advance_zero, hthread]
    · exact hpid
    · intro x
      rw [hzero, UInt16.add_zero]
      exact halike x

/-! ### Reads -/

theorem Relates.byte (h : r.Relates m n) {x : UInt16} (hx : r.InUse x) :
    n.arena.byte (x + r.distance) = m.arena.byte x :=
  r.byte_eq hx (h.alike x)

theorem Relates.word (h : r.Relates m n) {x : UInt16} (hx : r.InUse x) (hx' : r.InUse (x + 1)) :
    n.arena.word (x + r.distance) = m.arena.word x := by
  rw [Arena.word, Arena.word, h.byte hx, Word.add_right_comm, h.byte hx']

theorem Covers.inUse_of_cells {x : UInt16} (hs : r.Covers s) (h : s.cells .word = [x, x + 1]) :
    r.InUse x ∧ r.InUse (x + 1) := by
  have hinUse := hs.inUse
  rw [h] at hinUse
  exact ⟨hinUse x List.mem_cons_self, hinUse (x + 1) (List.mem_cons_of_mem _ List.mem_cons_self)⟩

theorem Relates.get (h : r.Relates m n) {q : Register} {part : Part}
    (hs : r.Covers (.register q part)) : n.thread.get q = m.thread.get q := by
  rw [h.thread_eq]
  obtain hzero | hfixed := hs.fixed
  · rw [hzero, Thread.advance_zero]
  · exact Thread.get_advance _ _ (Storage.ne_ip_of_isReadOnly hfixed)

theorem Relates.read (h : r.Relates m n) (hs : r.Covers s) (w : Width) :
    n.read (s.moved r.distance) w = m.read s w := by
  cases s with
  | register q part =>
      have hget := h.get hs
      cases part with
      | low => simp only [Storage.moved, Machine.read, hget]
      | high => simp only [Storage.moved, Machine.read, hget]
      | full => simp only [Storage.moved, Machine.read, hget]
  | immediate x =>
      have hinUse := hs.inUse_of_cells rfl
      unfold Storage.moved Machine.read
      dsimp only
      rw [h.word hinUse.1 hinUse.2]
  | memory x =>
      have hinUse := hs.inUse_of_cells rfl
      cases w with
      | byte =>
          unfold Storage.moved Machine.read
          dsimp only
          rw [h.byte hinUse.1]
      | word => exact h.word hinUse.1 hinUse.2

theorem Relates.value (h : r.Relates m n) (hs : r.Covers s) :
    n.value (s.moved r.distance) = m.value s := by
  rw [Machine.value, Machine.value, Storage.width_moved, h.read hs]

theorem Relates.flags (h : r.Relates m n) : n.thread.flags = m.thread.flags := by
  rw [h.thread_eq]
  rfl

theorem Relates.decode (h : r.Relates m n) (hip : r.InUse m.thread.ip)
    (hnext : r.InUse (m.thread.ip + 1)) :
    n.arena.decode n.thread.ip = m.arena.decode m.thread.ip := by
  have hat : n.thread.ip = m.thread.ip + r.distance := by
    rw [h.thread_eq]
    rfl
  rw [hat, Arena.decode, Arena.decode, h.byte hip, Word.add_right_comm, h.byte hnext]

/-! ### Writes -/

theorem Relates.withThread (h : r.Relates m n) {t u : Thread} (hu : u = t.advance r.distance) :
    r.Relates (m.withThread t) (n.withThread u) :=
  ⟨hu, h.pid_eq, h.alike⟩

theorem Relates.withFlags (h : r.Relates m n) (f : Flags) :
    r.Relates (m.withFlags f) (n.withFlags f) := by
  apply h.withThread
  rw [h.thread_eq]
  rfl

theorem Relates.setRegister (h : r.Relates m n) {q : Register} (hq : q ≠ .ip) (v : UInt16) :
    r.Relates (m.withThread (m.thread.set q v)) (n.withThread (n.thread.set q v)) := by
  apply h.withThread
  rw [h.thread_eq, Thread.set_advance _ _ hq]

theorem Relates.writeByte (h : r.Relates m n) {x : UInt16} (hx : r.InUse x) (v : UInt8) :
    r.Relates ⟨m.thread, m.arena.writeByte x v m.pid, m.pid⟩
      ⟨n.thread, n.arena.writeByte (x + r.distance) v n.pid, n.pid⟩ := by
  refine ⟨h.thread_eq, h.pid_eq, ?_⟩
  intro y
  rw [h.pid_eq, Arena.cell_writeByte, Arena.cell_writeByte]
  by_cases hxy : x = y
  · subst hxy
    rw [if_pos rfl, if_pos rfl]
    exact r.alike_refl _ hx
  · have hne : x + r.distance ≠ y + r.distance := fun e => hxy ((UInt16.add_left_inj _).mp e)
    rw [if_neg hxy, if_neg hne]
    exact h.alike y

theorem Relates.writeWord (h : r.Relates m n) {x : UInt16} (hx : r.InUse x)
    (hx' : r.InUse (x + 1)) (v : UInt16) :
    r.Relates ⟨m.thread, m.arena.writeWord x v m.pid, m.pid⟩
      ⟨n.thread, n.arena.writeWord (x + r.distance) v n.pid, n.pid⟩ := by
  unfold Arena.writeWord
  rw [Word.add_right_comm]
  exact (h.writeByte hx _).writeByte hx' _

theorem Relates.put (h : r.Relates m n) (hs : r.Covers s) (hwritable : s.isReadOnly = false)
    (v : UInt16) (w : Width) : r.Relates (m.put s v w) (n.put (s.moved r.distance) v w) := by
  cases s with
  | register q part =>
      have hget := h.get hs
      have hq := Storage.ne_ip_of_isReadOnly hwritable
      unfold Machine.put Storage.moved
      cases part with
      | low =>
          dsimp only
          rw [hget]
          exact h.setRegister hq _
      | high =>
          dsimp only
          rw [hget]
          exact h.setRegister hq _
      | full => exact h.setRegister hq _
  | immediate x =>
      obtain ⟨hx, hx'⟩ := hs.inUse_of_cells rfl
      exact h.writeWord hx hx' _
  | memory x =>
      obtain ⟨hx, hx'⟩ := hs.inUse_of_cells rfl
      cases w with
      | byte => exact h.writeByte hx _
      | word => exact h.writeWord hx hx' _

theorem Relates.store (h : r.Relates m n) (hs : r.Covers s) (v : UInt16) (w : Width) :
    r.Matches (m.store s v w) (n.store (s.moved r.distance) v w) := by
  unfold Machine.store
  rw [Storage.isReadOnly_moved]
  by_cases hreadOnly : s.isReadOnly = true
  · rw [if_pos hreadOnly, if_pos hreadOnly]
    exact ⟨h, rfl⟩
  · rw [if_neg hreadOnly, if_neg hreadOnly]
    exact ⟨h.put hs (Bool.eq_false_iff.mpr hreadOnly) v w, rfl⟩

/-! ### Operations -/

theorem Relates.finish (h : r.Relates m n) (hs : r.Covers s) (w : Width) (x : Alu.Result) :
    r.Matches (m.finish s w x) (n.finish (s.moved r.distance) w x) :=
  (h.withFlags x.flags).store hs x.value w

theorem Relates.modify (h : r.Relates m n) (hs : r.Covers s)
    (op : Width → UInt16 → Flags → Alu.Result) :
    r.Matches (m.modify s op) (n.modify (s.moved r.distance) op) := by
  unfold Machine.modify
  dsimp only
  rw [Storage.width_moved, h.value hs, h.flags]
  exact h.finish hs _ _

theorem Relates.combine (h : r.Relates m n) (ha : r.Covers a) (hb : r.Covers b)
    (op : Width → UInt16 → UInt16 → Alu.Result) :
    r.Matches (m.combine a b op) (n.combine (a.moved r.distance) (b.moved r.distance) op) := by
  unfold Machine.combine
  dsimp only
  rw [Storage.operationWidth_moved, h.read ha, h.read hb]
  exact h.finish ha _ _

theorem Relates.shift (h : r.Relates m n) (ha : r.Covers a) (hb : r.Covers b)
    (op : Width → UInt16 → UInt16 → Flags → Alu.Result) :
    r.Matches (m.shift a b op) (n.shift (a.moved r.distance) (b.moved r.distance) op) := by
  unfold Machine.shift
  dsimp only
  rw [Storage.operationWidth_moved, h.read ha, h.value hb, h.flags]
  exact h.finish ha _ _

theorem Relates.compare (h : r.Relates m n) (ha : r.Covers a) (hb : r.Covers b) :
    r.Relates (m.compare a b) (n.compare (a.moved r.distance) (b.moved r.distance)) := by
  unfold Machine.compare
  dsimp only
  rw [Storage.operationWidth_moved, h.read ha, h.read hb]
  exact h.withFlags _

theorem Relates.copy (h : r.Relates m n) (ha : r.Covers a) (hb : r.Covers b) :
    r.Matches (m.copy a b).ignore
      (n.copy (a.moved r.distance) (b.moved r.distance)).ignore := by
  unfold Machine.copy Machine.write Outcome.ignore
  rw [Storage.isReadOnly_moved, Storage.width_moved, h.value hb]
  by_cases hreadOnly : a.isReadOnly = true
  · rw [if_pos hreadOnly, if_pos hreadOnly]
    exact ⟨h, rfl⟩
  · rw [if_neg hreadOnly, if_neg hreadOnly]
    exact ⟨h.put ha (Bool.eq_false_iff.mpr hreadOnly) _ _, rfl⟩

theorem Relates.swap (h : r.Relates m n) (ha : r.Covers a) (hb : r.Covers b) :
    r.Matches (m.swap a b) (n.swap (a.moved r.distance) (b.moved r.distance)) := by
  unfold Machine.swap
  dsimp only
  rw [Storage.isReadOnly_moved, Storage.isReadOnly_moved, Storage.width_moved,
    Storage.width_moved, h.value ha, h.value hb]
  by_cases hreadOnly : (a.isReadOnly || b.isReadOnly) = true
  · rw [if_pos hreadOnly, if_pos hreadOnly]
    exact ⟨h, rfl⟩
  · rw [if_neg hreadOnly, if_neg hreadOnly]
    obtain ⟨hawritable, hbwritable⟩ :=
      Bool.or_eq_false_iff.mp (Bool.eq_false_iff.mpr hreadOnly)
    exact ⟨(h.put ha hawritable _ _).put hb hbwritable _ _, rfl⟩

theorem Relates.multiply (h : r.Relates m n) (hs : r.Covers s) (sign : Signedness) :
    r.Relates (m.multiply sign s) (n.multiply sign (s.moved r.distance)) := by
  unfold Machine.multiply
  dsimp only
  rw [Storage.width_moved, h.value hs, h.thread_eq, Alu.multiply_advance]
  exact h.withThread rfl

theorem Relates.divide (h : r.Relates m n) (hs : r.Covers s) (sign : Signedness) :
    r.Matches (m.divide sign s) (n.divide sign (s.moved r.distance)) := by
  unfold Machine.divide
  dsimp only
  rw [Storage.width_moved, h.value hs, h.thread_eq, Alu.divide?_advance]
  cases Alu.divide? sign s.width (m.value s) m.thread with
  | none => exact ⟨h, rfl⟩
  | some t => exact ⟨h.withThread rfl, rfl⟩

theorem Relates.applyUnary (h : r.Relates m n) (hs : r.Covers s) (op : Opcode) :
    r.Matches (m.applyUnary op s) (n.applyUnary op (s.moved r.distance)) := by
  unfold Machine.applyUnary
  cases op with
  | mul => exact ⟨h.multiply hs _, rfl⟩
  | imul => exact ⟨h.multiply hs _, rfl⟩
  | div => exact h.divide hs _
  | idiv => exact h.divide hs _
  | neg => exact h.modify hs _
  | not => exact h.modify hs _
  | inc => exact h.modify hs _
  | dec => exact h.modify hs _
  | _ => exact ⟨h, rfl⟩

theorem Relates.applyBinary (h : r.Relates m n) (ha : r.Covers a) (hb : r.Covers b)
    (op : Opcode) :
    r.Matches (m.applyBinary op a b)
      (n.applyBinary op (a.moved r.distance) (b.moved r.distance)) := by
  unfold Machine.applyBinary
  cases op with
  | mov => exact h.copy ha hb
  | swp => exact h.swap ha hb
  | cmp => exact ⟨h.compare ha hb, rfl⟩
  | add => exact h.combine ha hb _
  | sub => exact h.combine ha hb _
  | and => exact h.combine ha hb _
  | or => exact h.combine ha hb _
  | xor => exact h.combine ha hb _
  | shl => exact h.shift ha hb _
  | shr => exact h.shift ha hb _
  | _ => exact ⟨h, rfl⟩

/-! ### Operands -/

theorem address_moved {mode : AccessMode} (h : r.distance = 0 ∨ mode = .relative)
    (ip v : UInt16) : mode.address (ip + r.distance) v = mode.address ip v + r.distance := by
  cases mode with
  | direct =>
      obtain hzero | hmode := h
      · rw [hzero, UInt16.add_zero, UInt16.add_zero]
      · cases hmode
  | relative => exact Word.add_right_comm _ _ _

theorem immediateAddress_moved (i : Instruction) (ip : UInt16) (p : Position) :
    Arena.immediateAddress i (ip + r.distance) p = Arena.immediateAddress i ip p + r.distance :=
  Word.add_right_comm _ _ _

/-- Operands are at the distance too. -/
theorem Relates.storage (h : r.Relates m n) (hreach : ∀ x ∈ m.reach i, r.InUse x)
    (hmode : (i.location p).isPointer = true → r.distance = 0 ∨ i.mode p = .relative) :
    n.storage i p = (m.storage i p).map (·.moved r.distance) := by
  have hip : n.thread.ip = m.thread.ip + r.distance := by
    rw [h.thread_eq]
    rfl
  have hregister : ∀ q ≠ Register.ip, n.thread.get q = m.thread.get q := by
    intro q hq
    rw [h.thread_eq, Thread.get_advance _ _ hq]
  have hax : n.thread.ax = m.thread.ax := hregister .ax (by decide)
  have hbx : n.thread.bx = m.thread.bx := hregister .bx (by decide)
  have hcx : n.thread.cx = m.thread.cx := hregister .cx (by decide)
  unfold Machine.storage
  dsimp only
  cases hlocation : i.location p with
  | pax =>
      dsimp only [Except.map, Storage.moved]
      rw [hip, hax, address_moved (hmode (by rw [hlocation]; rfl))]
  | pbx =>
      dsimp only [Except.map, Storage.moved]
      rw [hip, hbx, address_moved (hmode (by rw [hlocation]; rfl))]
  | pcx =>
      dsimp only [Except.map, Storage.moved]
      rw [hip, hcx, address_moved (hmode (by rw [hlocation]; rfl))]
  | imd =>
      dsimp only [Except.map, Storage.moved]
      rw [hip, immediateAddress_moved]
  | pimd =>
      have himmediate : (i.location p).hasImmediate = true := by
        rw [hlocation]
        rfl
      obtain ⟨hfirst, hsecond⟩ := Machine.immediateAddress_mem_reach (m := m) himmediate
      dsimp only [Except.map, Storage.moved]
      rw [hip, immediateAddress_moved, h.word (hreach _ hfirst) (hreach _ hsecond),
        address_moved (hmode (by rw [hlocation]; rfl))]
  | _ => rfl

theorem covers_of_storage (hreach : ∀ x ∈ m.reach i, r.InUse x)
    (hi : r.distance = 0 ∨ i.IsRelocatable) (huse : i.opcode.uses p = true)
    (h : m.storage i p = .ok s) : r.Covers s := by
  constructor
  · intro x hx
    exact hreach x (Machine.cells_subset_reach huse h x hx)
  · obtain hzero | hi := hi
    · exact .inl hzero
    · right
      rw [← Bool.not_eq_true, Machine.isReadOnly_storage_iff h]
      exact hi.ne_ip p huse

/-! ### Steps -/

theorem Relates.jump (h : r.Relates m n) {mode : AccessMode}
    (hmode : r.distance = 0 ∨ mode = .relative) (target : UInt16) :
    r.Relates (m.jump mode target) (n.jump mode target) := by
  apply h.withThread
  rw [h.thread_eq]
  unfold Thread.advance
  dsimp only
  rw [address_moved hmode]

theorem Relates.advance (h : r.Relates m n) (k : UInt16) :
    r.Relates (m.advance k) (n.advance k) := by
  apply h.withThread
  rw [h.thread_eq, Thread.advance_advance]

theorem Matches.map {α β : Type} {o o' : Outcome α} (h : r.Matches o o') (f : α → β) :
    r.Matches ⟨o.machine, o.result.map f⟩ ⟨o'.machine, o'.result.map f⟩ :=
  ⟨h.machine, by rw [h.result_eq]⟩

theorem Relates.execute (h : r.Relates m n) (hreach : ∀ x ∈ m.reach i, r.InUse x)
    (hi : r.distance = 0 ∨ i.IsRelocatable) : r.Matches (m.execute i) (n.execute i) := by
  have hstorage : ∀ p, i.opcode.uses p = true →
      n.storage i p = (m.storage i p).map (·.moved r.distance) := by
    intro p huse
    exact h.storage hreach fun hpointer => hi.imp_right fun hi => hi.mode_eq p huse hpointer
  unfold Machine.execute
  cases hform : i.opcode.form with
  | idle => exact ⟨h, rfl⟩
  | halt => exact ⟨h, rfl⟩
  | jump =>
      have huse : i.opcode.uses .destination = true := by
        simp [Opcode.uses, Opcode.arity, hform]
      have hjump : i.opcode.isJump = true := by
        rw [Opcode.isJump, hform]
        rfl
      dsimp only
      rw [hstorage _ huse]
      cases ha : m.storage i .destination with
      | error e => exact ⟨h, rfl⟩
      | ok a =>
          have hcovers := covers_of_storage hreach hi huse ha
          dsimp only [Except.map]
          rw [h.flags, h.value hcovers]
          by_cases htaken : i.opcode.isTaken m.thread.flags = true
          · rw [if_pos htaken, if_pos htaken]
            exact ⟨h.jump (hi.imp_right fun hi => hi.jump hjump) _, rfl⟩
          · rw [if_neg htaken, if_neg htaken]
            exact ⟨h, rfl⟩
  | unary =>
      have huse : i.opcode.uses .destination = true := by
        simp [Opcode.uses, Opcode.arity, hform]
      dsimp only
      rw [hstorage _ huse]
      cases ha : m.storage i .destination with
      | error e => exact ⟨h, rfl⟩
      | ok a =>
          have hcovers := covers_of_storage hreach hi huse ha
          exact (h.applyUnary hcovers i.opcode).map _
  | binary =>
      have huse : i.opcode.uses .destination = true := by
        simp [Opcode.uses, Opcode.arity, hform]
      have huse' : i.opcode.uses .source = true := by
        simp [Opcode.uses, Opcode.arity, hform]
      dsimp only
      rw [hstorage _ huse, hstorage _ huse']
      cases ha : m.storage i .destination with
      | error e => exact ⟨h, rfl⟩
      | ok a =>
          cases hb : m.storage i .source with
          | error e => exact ⟨h, rfl⟩
          | ok b =>
              have hacovers := covers_of_storage hreach hi huse ha
              have hbcovers := covers_of_storage hreach hi huse' hb
              exact (h.applyBinary hacovers hbcovers i.opcode).map _

/-- Machines that are alike take the same step, as long as the cells that the step
looks at are in use and the instruction does not show a distance between them. -/
theorem Relates.matches_step (h : r.Relates m n) (hfootprint : ∀ x ∈ m.footprint, r.InUse x)
    (hi : r.distance = 0 ∨ (m.arena.decode m.thread.ip).IsRelocatable) :
    r.Matches m.step n.step := by
  have hdecode : n.arena.decode n.thread.ip = m.arena.decode m.thread.ip :=
    h.decode (hfootprint _ Machine.ip_mem_reach) (hfootprint _ Machine.ip_succ_mem_reach)
  have hexecute := h.execute hfootprint hi
  unfold Machine.step
  dsimp only
  rw [hdecode]
  obtain ⟨hmachine, hresult⟩ := hexecute
  revert hmachine hresult
  obtain ⟨m', result⟩ := m.execute (m.arena.decode m.thread.ip)
  obtain ⟨n', result'⟩ := n.execute (m.arena.decode m.thread.ip)
  intro hmachine hresult
  dsimp only at hmachine hresult
  subst hresult
  cases result' with
  | error e => exact ⟨hmachine, rfl⟩
  | ok jumped =>
      cases jumped with
      | true => exact ⟨hmachine, rfl⟩
      | false => exact ⟨hmachine.advance _, rfl⟩

end Likeness
end CoreWar
