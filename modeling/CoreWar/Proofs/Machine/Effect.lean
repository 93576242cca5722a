import CoreWar.Step

/-!
# What a step writes

A step changes the arena only where it writes an operand, and it signs what it
writes: a cell that is written belongs to the player from then on, also if its byte
stays the same.  Which cells these are depends on the width of the write, and four
rules give that width.  A copy has the width of its source, an exchange writes each
side at the width of the other, an operation of two operands has a common width,
and one of a single operand has the width of that operand.

`Arena.Signed` relates an arena to the one that such writes make of it.  It is shown
of one write, then of the operations, and then of the step (`step_written`).  What a
step that succeeds can execute is said once, by the form of its instruction
(`Executes`).
-/

namespace CoreWar

/-- The cells of a storage at a width.  The word inside an instruction has two cells
at any width. -/
def Storage.cells (s : Storage) (w : Width) : List UInt16 :=
  match s, w with
  | .register _ _, _ => []
  | .immediate a, _ => [a, a + 1]
  | .memory a, .byte => [a]
  | .memory a, .word => [a, a + 1]

namespace Opcode

/-- The cells that an operation of one operand writes. -/
def target (op : Opcode) (a : Storage) : List UInt16 :=
  match op with
  | .neg | .not | .inc | .dec => a.cells a.width
  | _ => []

/-- The cells that an operation of two operands writes. -/
def targets (op : Opcode) (a b : Storage) : List UInt16 :=
  match op with
  | .mov => a.cells b.width
  | .swp => a.cells b.width ++ b.cells a.width
  | .add | .sub | .and | .or | .xor | .shl | .shr => a.cells (Storage.operationWidth a b)
  | _ => []

/-- The operations that leave the arena alone whatever their operands are. -/
def isSilent (op : Opcode) : Bool :=
  op.isJump || [.nop, .int, .cmp, .mul, .imul, .div, .idiv].contains op

variable {op : Opcode}

theorem target_of_isSilent (h : op.isSilent = true) (a : Storage) : op.target a = [] := by
  cases op with
  | neg | not | inc | dec => cases h
  | _ => rfl

theorem targets_of_isSilent (h : op.isSilent = true) (a b : Storage) : op.targets a b = [] := by
  cases op with
  | mov | swp | add | sub | and | or | xor | shl | shr => cases h
  | _ => rfl

end Opcode

/-- The cells that an instruction writes if it succeeds. -/
def Machine.written (m : Machine) (i : Instruction) : List UInt16 :=
  match i.opcode.form, m.storage i .destination, m.storage i .source with
  | .unary, .ok a, _ => i.opcode.target a
  | .binary, .ok a, .ok b => i.opcode.targets a b
  | _, _, _ => []

namespace Arena

/-- The cells at some addresses have been written for a player, and no others. -/
structure Signed (pid : UInt8) (cells : List UInt16) (before after : Arena) : Prop where
  owner_eq : ∀ x ∈ cells, after.owner x = pid
  cell_eq : ∀ x ∉ cells, after.cell x = before.cell x

variable {pid : UInt8} {xs ys : List UInt16} {m n k : Arena}

theorem Signed.refl (pid : UInt8) (m : Arena) : Signed pid [] m m := by
  constructor
  · intro x hx
    cases hx
  · intro x _
    rfl

theorem Signed.trans (h : Signed pid xs m n) (h' : Signed pid ys n k) :
    Signed pid (xs ++ ys) m k := by
  constructor
  · intro x hx
    by_cases hy : x ∈ ys
    · exact h'.owner_eq x hy
    · -- What the first writes signed, the others have left alone.
      have hfirst : x ∈ xs := (List.mem_append.mp hx).resolve_right hy
      rw [owner, h'.cell_eq x hy]
      exact h.owner_eq x hfirst
  · intro x hx
    rw [List.mem_append, not_or] at hx
    rw [h'.cell_eq x hx.2, h.cell_eq x hx.1]

theorem Signed.eq (h : Signed pid [] m n) : n = m := by
  ext1 x
  exact h.cell_eq x List.not_mem_nil

theorem signed_writeByte (m : Arena) (a : UInt16) (b pid : UInt8) :
    Signed pid [a] m (m.writeByte a b pid) := by
  constructor
  · intro x hx
    rw [List.mem_singleton.mp hx, owner, cell_writeByte, if_pos rfl]
  · intro x hx
    have hne : a ≠ x := fun h => hx (List.mem_singleton.mpr h.symm)
    rw [cell_writeByte, if_neg hne]

theorem signed_writeWord (m : Arena) (a w : UInt16) (pid : UInt8) :
    Signed pid [a, a + 1] m (m.writeWord a w pid) :=
  (m.signed_writeByte a (Word.high w) pid).trans (signed_writeByte _ (a + 1) (Word.low w) pid)

end Arena

namespace Machine

open Arena

variable (m : Machine)

/-! ## Writes -/

@[simp] theorem pid_put (s : Storage) (v : UInt16) (w : Width) : (m.put s v w).pid = m.pid := by
  cases s with
  | register r part => cases part <;> rfl
  | immediate a => rfl
  | memory a => cases w <;> rfl

theorem signed_put (s : Storage) (v : UInt16) (w : Width) :
    Signed m.pid (s.cells w) m.arena (m.put s v w).arena := by
  cases s with
  | register r part => cases part <;> exact .refl _ _
  | immediate a => exact signed_writeWord _ _ _ _
  | memory a =>
      cases w with
      | byte => exact signed_writeByte _ _ _ _
      | word => exact signed_writeWord _ _ _ _

/-- What refuses writes is no cell of the arena. -/
theorem cells_of_isReadOnly {s : Storage} (h : s.isReadOnly = true) (w : Width) :
    s.cells w = [] := by
  cases s with
  | register r part => rfl
  | immediate a => cases h
  | memory a => cases h

theorem signed_store (s : Storage) (v : UInt16) (w : Width) :
    Signed m.pid (s.cells w) m.arena (m.store s v w).machine.arena := by
  unfold store
  by_cases h : s.isReadOnly = true
  · rw [if_pos h, cells_of_isReadOnly h]
    exact .refl _ _
  · rw [if_neg h]
    exact m.signed_put s v w

theorem signed_finish (dst : Storage) (w : Width) (r : Alu.Result) :
    Signed m.pid (dst.cells w) m.arena (m.finish dst w r).machine.arena :=
  (m.withFlags r.flags).signed_store dst r.value w

theorem signed_copy (a b : Storage) :
    Signed m.pid (a.cells b.width) m.arena (m.copy a b).ignore.machine.arena := by
  unfold copy write Outcome.ignore
  by_cases h : a.isReadOnly = true
  · rw [if_pos h, cells_of_isReadOnly h]
    exact .refl _ _
  · rw [if_neg h]
    exact m.signed_put a (m.value b) b.width

theorem signed_swap {a b : Storage} (h : (m.swap a b).result = .ok ()) :
    Signed m.pid (a.cells b.width ++ b.cells a.width) m.arena (m.swap a b).machine.arena := by
  unfold swap at h ⊢
  by_cases hreadOnly : (a.isReadOnly || b.isReadOnly) = true
  · rw [if_pos hreadOnly] at h
    cases h
  · rw [if_neg hreadOnly]
    have hfirst := m.signed_put a (m.value b) b.width
    have hsecond := (m.put a (m.value b) b.width).signed_put b (m.value a) a.width
    rw [pid_put] at hsecond
    exact hfirst.trans hsecond

/-! ## Operations -/

theorem signed_divide (s : Signedness) (a : Storage) :
    Signed m.pid [] m.arena (m.divide s a).machine.arena := by
  unfold divide
  dsimp only
  split
  · exact .refl _ _
  · exact .refl _ _

theorem signed_applyUnary (op : Opcode) (a : Storage) :
    Signed m.pid (op.target a) m.arena (m.applyUnary op a).machine.arena := by
  cases op with
  | div => exact m.signed_divide .unsigned a
  | idiv => exact m.signed_divide .signed a
  | neg => exact m.signed_finish a _ _
  | not => exact m.signed_finish a _ _
  | inc => exact m.signed_finish a _ _
  | dec => exact m.signed_finish a _ _
  | _ => exact .refl _ _

theorem signed_applyBinary {op : Opcode} {a b : Storage}
    (h : (m.applyBinary op a b).result = .ok ()) :
    Signed m.pid (op.targets a b) m.arena (m.applyBinary op a b).machine.arena := by
  cases op with
  | mov => exact m.signed_copy a b
  | swp => exact m.signed_swap h
  | add => exact m.signed_finish a _ _
  | sub => exact m.signed_finish a _ _
  | and => exact m.signed_finish a _ _
  | or => exact m.signed_finish a _ _
  | xor => exact m.signed_finish a _ _
  | shl => exact m.signed_finish a _ _
  | shr => exact m.signed_finish a _ _
  | _ => exact .refl _ _

/-! ## Steps -/

variable {m}

/-- What an instruction that succeeds executes, by the form of its operands, and whether it
jumps. -/
inductive Executes (m : Machine) (i : Instruction) : Machine → Bool → Prop
  | idle (hform : i.opcode.form = .idle) : m.Executes i m false
  | stays {a : Storage} (hform : i.opcode.form = .jump) (ha : m.storage i .destination = .ok a)
      (htaken : i.opcode.isTaken m.thread.flags = false) : m.Executes i m false
  | jumps {a : Storage} (hform : i.opcode.form = .jump) (ha : m.storage i .destination = .ok a)
      (htaken : i.opcode.isTaken m.thread.flags = true) :
      m.Executes i (m.jump i.dstMode (m.value a)) true
  | unary {a : Storage} (hform : i.opcode.form = .unary) (ha : m.storage i .destination = .ok a)
      (hok : (m.applyUnary i.opcode a).result = .ok ()) :
      m.Executes i (m.applyUnary i.opcode a).machine false
  | binary {a b : Storage} (hform : i.opcode.form = .binary)
      (ha : m.storage i .destination = .ok a) (hb : m.storage i .source = .ok b)
      (hok : (m.applyBinary i.opcode a b).result = .ok ()) :
      m.Executes i (m.applyBinary i.opcode a b).machine false

theorem of_map_eq_ok {r : Except Fault Unit} {jumped : Bool}
    (h : (r.map fun _ => false) = .ok jumped) : r = .ok () ∧ jumped = false := by
  cases r with
  | ok u =>
      cases h
      exact ⟨rfl, rfl⟩
  | error e => cases h

theorem executes_of_execute {i : Instruction} {n : Machine} {jumped : Bool}
    (h : m.execute i = ⟨n, .ok jumped⟩) : m.Executes i n jumped := by
  unfold execute at h
  cases hform : i.opcode.form with
  | idle =>
      rw [hform] at h
      cases h
      exact .idle hform
  | halt =>
      rw [hform] at h
      cases h
  | jump =>
      rw [hform] at h
      dsimp only at h
      split at h
      next e ha => cases h
      next a ha =>
        split at h
        next htaken =>
          cases h
          exact .jumps hform ha htaken
        next htaken =>
          cases h
          exact .stays hform ha (Bool.eq_false_iff.mpr htaken)
  | unary =>
      rw [hform] at h
      dsimp only at h
      split at h
      next e ha => cases h
      next a ha =>
        injection h with hmachine hresult
        obtain ⟨hok, rfl⟩ := of_map_eq_ok hresult
        exact hmachine ▸ .unary hform ha hok
  | binary =>
      rw [hform] at h
      dsimp only at h
      split at h
      next e ha => cases h
      next a ha =>
        split at h
        next e hb => cases h
        next b hb =>
          injection h with hmachine hresult
          obtain ⟨hok, rfl⟩ := of_map_eq_ok hresult
          exact hmachine ▸ .binary hform ha hb hok

theorem Executes.signed {i : Instruction} {n : Machine} {jumped : Bool}
    (h : m.Executes i n jumped) : Signed m.pid (m.written i) m.arena n.arena := by
  unfold written
  cases h with
  | idle hform =>
      rw [hform]
      exact .refl _ _
  | stays hform _ _ =>
      rw [hform]
      exact .refl _ _
  | jumps hform _ _ =>
      rw [hform]
      exact .refl _ _
  | @unary a hform ha _ =>
      rw [hform, ha]
      exact m.signed_applyUnary i.opcode a
  | binary hform ha hb hok =>
      rw [hform, ha, hb]
      exact m.signed_applyBinary hok

/-- What a step that succeeds has executed, and how it leaves the machine. -/
theorem exists_execute_of_step {i : Instruction} (h : m.step.result = .ok i) :
    i = m.arena.decode m.thread.ip ∧ ∃ n jumped, m.Executes i n jumped ∧
      m.step.machine = if jumped then n else n.advance i.size := by
  unfold step at h ⊢
  dsimp only at h ⊢
  split at h
  next n e hexecute => cases h
  next n hexecute =>
    obtain rfl : m.arena.decode m.thread.ip = i := Except.ok.inj h
    exact ⟨rfl, n, true, executes_of_execute hexecute, rfl⟩
  next n hexecute =>
    obtain rfl : m.arena.decode m.thread.ip = i := Except.ok.inj h
    exact ⟨rfl, n, false, executes_of_execute hexecute, rfl⟩

theorem signed_step {i : Instruction} (h : m.step.result = .ok i) :
    Signed m.pid (m.written i) m.arena m.step.machine.arena := by
  obtain ⟨-, n, jumped, hexecutes, hmachine⟩ := exists_execute_of_step h
  rw [hmachine]
  cases jumped with
  | true => exact hexecutes.signed
  | false => exact hexecutes.signed

theorem written_of_isSilent {i : Instruction} (h : i.opcode.isSilent = true) :
    m.written i = [] := by
  unfold written
  split
  · exact Opcode.target_of_isSilent h _
  · exact Opcode.targets_of_isSilent h _ _
  · rfl

/-- A step that succeeds signs the cells that its instruction writes and leaves all
others alone; of some operations these are none at all. -/
theorem step_written (m : Machine) {i : Instruction} (h : m.step.result = .ok i) :
    i = m.arena.decode m.thread.ip ∧
      (∀ x ∈ m.written i, m.step.machine.arena.owner x = m.pid) ∧
      (∀ x ∉ m.written i, m.step.machine.arena.cell x = m.arena.cell x) ∧
      (i.opcode.isSilent = true → m.step.machine.arena = m.arena) := by
  have hsigned := signed_step h
  refine ⟨(exists_execute_of_step h).1, hsigned.owner_eq, hsigned.cell_eq, ?_⟩
  intro hsilent
  rw [written_of_isSilent hsilent] at hsigned
  exact hsigned.eq

/-- A thread at a copy of `ax` to memory.  The memory is the word of the instruction
itself, which another player has written, and `ax` holds just that word. -/
def copyOverWord : Machine where
  thread := { ax := 2 }
  arena := Arena.empty.writeBytes 0 2 [0x0A, 0x6D, 0, 2]
  pid := 1

/-- The bytes of the word stay the same, but their owner changes. -/
theorem step_written_copyOverWord :
    copyOverWord.step.result = .ok ⟨.mov, .relative, .direct, .pimd, .ax⟩ ∧
      copyOverWord.arena.owner 2 = 2 ∧ copyOverWord.arena.owner 3 = 2 ∧
      copyOverWord.step.machine.arena.owner 2 = 1 ∧
      copyOverWord.step.machine.arena.owner 3 = 1 ∧
      copyOverWord.step.machine.arena.cell 1 = copyOverWord.arena.cell 1 := by
  have hresult : copyOverWord.step.result = .ok ⟨.mov, .relative, .direct, .pimd, .ax⟩ := rfl
  have hwritten : copyOverWord.written ⟨.mov, .relative, .direct, .pimd, .ax⟩ = [2, 3] := by
    decide +kernel
  obtain ⟨-, howner, hcell, -⟩ := step_written copyOverWord hresult
  rw [hwritten] at howner hcell
  exact ⟨hresult, by decide +kernel, by decide +kernel, howner 2 (by decide), howner 3 (by decide),
    hcell 1 (by decide)⟩

end Machine
end CoreWar
