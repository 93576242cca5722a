import CoreWar.Step
import CoreWar.Proofs.Arena.Encoding

/-!
# Faults

What makes a step fail can be read off the instruction before anything is
executed: `Machine.Fails` lists the ways.  An operation sets its flags before it
stores its result, so it would leave a trace if the store failed.  It cannot:
only the instruction pointer refuses a store, and it has no code as a
destination.  An exchange, which writes to its source too, looks at both sides
first.  So a step that fails leaves the machine as it was.
-/

namespace CoreWar

/-! ## Destinations -/

theorem Location.ofNibble_destination_ne_ip (n : UInt8) :
    Location.ofNibble .destination n ≠ .ip := by
  have hall : ∀ k : Fin 16, Position.destination.table.getD k.val .invalid ≠ .ip := by decide
  exact hall ⟨n.toNat % 16, Nat.mod_lt _ (by decide)⟩

theorem Arena.dst_decode_ne_ip (m : Arena) (a : UInt16) : (m.decode a).dst ≠ .ip :=
  Location.ofNibble_destination_ne_ip _

/-! ## Forms -/

namespace Opcode

variable {op : Opcode}

theorem eq_nop_of_form (h : op.form = .idle) : op = .nop := by
  cases op <;> first | rfl | cases h

theorem eq_dat_of_form (h : op.form = .halt) : op = .dat := by
  cases op <;> first | rfl | cases h

/-- Only a jump is ever taken. -/
theorem form_of_isTaken {f : Flags} (h : op.isTaken f = true) : op.form = .jump := by
  cases op with
  | jmp | jg | jge | je | jne | jl | jle | jc | jnc | jo | jno => rfl
  | _ => cases h

theorem ne_of_arity {other : Opcode} {n : Nat} (h : op.arity = n) (hother : other.arity ≠ n) :
    op ≠ other := by
  rintro rfl
  exact hother h

theorem ne_of_form {other : Opcode} {f : Form} (h : op.form = f) (hother : other.form ≠ f) :
    op ≠ other := by
  rintro rfl
  exact hother h

end Opcode

namespace Alu

theorem divide?_eq_none_iff {s : Signedness} {w : Width} {v : UInt16} {t : Thread} :
    divide? s w v t = none ↔ v = 0 := by
  unfold divide?
  split
  next h => simp [h]
  next h => simp [h]

end Alu

namespace Machine

variable {m m' : Machine} {i : Instruction} {p : Position} {a b : Storage} {fault : Fault}

/-! ## Operands -/

theorem storage_eq_error_iff :
    m.storage i p = .error fault ↔ i.location p = .invalid ∧ fault = .invalidLocation := by
  unfold storage
  dsimp only
  cases i.location p <;> simp [eq_comm]

theorem ne_invalid_of_storage (h : m.storage i p = .ok a) : i.location p ≠ .invalid := by
  intro hinvalid
  rw [storage_eq_error_iff.mpr ⟨hinvalid, rfl⟩] at h
  cases h

/-- Only the operand that is the instruction pointer cannot be written. -/
theorem isReadOnly_storage_iff (h : m.storage i p = .ok a) :
    a.isReadOnly = true ↔ i.location p = .ip := by
  unfold storage at h
  dsimp only at h
  cases hlocation : i.location p <;> rw [hlocation] at h <;> cases h <;>
    simp [Storage.isReadOnly]

/-! ## Operations -/

theorem result_store (h : a.isReadOnly = false) (v : UInt16) (w : Width) :
    (m.store a v w).result = .ok () := by
  simp [store, h]

theorem result_modify (h : a.isReadOnly = false)
    (op : Width → UInt16 → Flags → Alu.Result) : (m.modify a op).result = .ok () :=
  result_store h _ _

theorem result_combine (h : a.isReadOnly = false) (b : Storage)
    (op : Width → UInt16 → UInt16 → Alu.Result) : (m.combine a b op).result = .ok () :=
  result_store h _ _

theorem result_shift (h : a.isReadOnly = false) (b : Storage)
    (op : Width → UInt16 → UInt16 → Flags → Alu.Result) : (m.shift a b op).result = .ok () :=
  result_store h _ _

theorem result_ignore_copy (h : a.isReadOnly = false) (b : Storage) :
    (m.copy a b).ignore.result = .ok () := by
  simp [copy, write, h, Outcome.ignore, Except.map]

theorem divide_eq_error_iff {s : Signedness} :
    m.divide s a = ⟨m', .error fault⟩ ↔
      m' = m ∧ fault = .divideByZero ∧ m.value a = 0 := by
  unfold divide
  dsimp only
  split
  next t ht =>
    have hne : m.value a ≠ 0 := by
      intro hzero
      rw [Alu.divide?_eq_none_iff.mpr hzero] at ht
      cases ht
    simp [hne]
  next hnone =>
    have hzero := Alu.divide?_eq_none_iff.mp hnone
    simp [hzero, eq_comm]

theorem swap_eq_error_iff (h : a.isReadOnly = false) :
    m.swap a b = ⟨m', .error fault⟩ ↔ m' = m ∧ fault = .readOnly ∧ b.isReadOnly = true := by
  unfold swap
  rw [h, Bool.false_or]
  split
  next hb => simp [hb, eq_comm]
  next hb => simp [hb]

theorem mk_map_eq_error_iff {α β : Type} {o : Outcome α} {f : α → β} :
    (⟨o.machine, o.result.map f⟩ : Outcome β) = ⟨m', .error fault⟩ ↔ o = ⟨m', .error fault⟩ := by
  obtain ⟨m, r⟩ := o
  cases r <;> simp [Except.map]

theorem ne_of_result_eq_ok {o : Outcome Unit} (h : o.result = .ok ()) :
    o ≠ ⟨m', .error fault⟩ := by
  rintro rfl
  cases h

/-- An operation of one operand fails only if it divides by zero. -/
theorem applyUnary_eq_error_iff (h : a.isReadOnly = false) {op : Opcode} :
    m.applyUnary op a = ⟨m', .error fault⟩ ↔
      m' = m ∧ fault = .divideByZero ∧ (op = .div ∨ op = .idiv) ∧ m.value a = 0 := by
  unfold applyUnary
  split
  · simp
  · simp
  · simp [divide_eq_error_iff]
  · simp [divide_eq_error_iff]
  · simp [ne_of_result_eq_ok (result_modify h _)]
  · simp [ne_of_result_eq_ok (result_modify h _)]
  · simp [ne_of_result_eq_ok (result_modify h _)]
  · simp [ne_of_result_eq_ok (result_modify h _)]
  next hdiv hidiv _ _ _ _ =>
    have hnever : ¬(op = .div ∨ op = .idiv) := not_or.mpr ⟨hdiv, hidiv⟩
    simp [hnever]

/-- An operation of two operands fails only if it exchanges something with the
instruction pointer. -/
theorem applyBinary_eq_error_iff (h : a.isReadOnly = false) {op : Opcode} :
    m.applyBinary op a b = ⟨m', .error fault⟩ ↔
      m' = m ∧ fault = .readOnly ∧ op = .swp ∧ b.isReadOnly = true := by
  unfold applyBinary
  split
  · simp [ne_of_result_eq_ok (result_ignore_copy h b)]
  · simp [swap_eq_error_iff h]
  · simp [ne_of_result_eq_ok (result_combine h b _)]
  · simp [ne_of_result_eq_ok (result_combine h b _)]
  · simp
  · simp [ne_of_result_eq_ok (result_combine h b _)]
  · simp [ne_of_result_eq_ok (result_combine h b _)]
  · simp [ne_of_result_eq_ok (result_combine h b _)]
  · simp [ne_of_result_eq_ok (result_shift h b _)]
  · simp [ne_of_result_eq_ok (result_shift h b _)]
  next hswp _ _ _ _ _ _ _ _ =>
    have hnever : op ≠ .swp := hswp
    simp [hnever]

/-! ## Steps -/

/-- The ways in which an instruction fails. -/
def Fails (m : Machine) (i : Instruction) : Fault → Prop
  | .dataExecuted => i.opcode = .dat
  | .invalidLocation =>
    (1 ≤ i.opcode.arity ∧ i.dst = .invalid) ∨ (i.opcode.arity = 2 ∧ i.src = .invalid)
  | .readOnly => i.opcode = .swp ∧ i.dst ≠ .invalid ∧ i.src = .ip
  | .divideByZero =>
    (i.opcode = .div ∨ i.opcode = .idiv) ∧
      ∃ a, m.storage i .destination = .ok a ∧ m.value a = 0
  | .invalidArgument _ => False

section Fails

variable (m)

theorem fails_iff_of_dst_invalid (harity : 1 ≤ i.opcode.arity) (hdst : i.dst = .invalid) :
    m.Fails i fault ↔ fault = .invalidLocation := by
  have hdat : i.opcode ≠ .dat := by
    intro h
    rw [h] at harity
    exact absurd harity (by decide)
  have hstorage : m.storage i .destination = .error .invalidLocation :=
    storage_eq_error_iff.mpr ⟨hdst, rfl⟩
  cases fault <;> simp [Fails, harity, hdst, hdat, hstorage]

theorem fails_iff_of_src_invalid (harity : i.opcode.arity = 2) (hsrc : i.src = .invalid) :
    m.Fails i fault ↔ fault = .invalidLocation := by
  have hdat : i.opcode ≠ .dat := Opcode.ne_of_arity harity (by decide)
  have hdiv : i.opcode ≠ .div := Opcode.ne_of_arity harity (by decide)
  have hidiv : i.opcode ≠ .idiv := Opcode.ne_of_arity harity (by decide)
  cases fault <;> simp [Fails, harity, hsrc, hdat, hdiv, hidiv]

theorem fails_iff_of_unary (harity : i.opcode.arity = 1)
    (hdst : m.storage i .destination = .ok a) :
    m.Fails i fault ↔
      fault = .divideByZero ∧ (i.opcode = .div ∨ i.opcode = .idiv) ∧ m.value a = 0 := by
  have hdat : i.opcode ≠ .dat := Opcode.ne_of_arity harity (by decide)
  have hswp : i.opcode ≠ .swp := Opcode.ne_of_arity harity (by decide)
  have hvalid : i.dst ≠ .invalid := ne_invalid_of_storage hdst
  cases fault <;> simp [Fails, harity, hdst, hvalid, hdat, hswp]

theorem fails_iff_of_binary (harity : i.opcode.arity = 2)
    (hdst : m.storage i .destination = .ok a) (hsrc : m.storage i .source = .ok b) :
    m.Fails i fault ↔ fault = .readOnly ∧ i.opcode = .swp ∧ b.isReadOnly = true := by
  have hdat : i.opcode ≠ .dat := Opcode.ne_of_arity harity (by decide)
  have hdiv : i.opcode ≠ .div := Opcode.ne_of_arity harity (by decide)
  have hidiv : i.opcode ≠ .idiv := Opcode.ne_of_arity harity (by decide)
  have hvalid : i.dst ≠ .invalid := ne_invalid_of_storage hdst
  have hvalid' : i.src ≠ .invalid := ne_invalid_of_storage hsrc
  have hip : b.isReadOnly = true ↔ i.src = .ip := isReadOnly_storage_iff hsrc
  cases fault <;> simp [Fails, harity, hvalid, hvalid', hip, hdat, hdiv, hidiv]

end Fails

/-- An instruction whose destination is not the instruction pointer changes
nothing when it fails. -/
theorem execute_eq_error_iff (hdst : i.dst ≠ .ip) :
    m.execute i = ⟨m', .error fault⟩ ↔ m' = m ∧ m.Fails i fault := by
  have hwritable : ∀ a, m.storage i .destination = .ok a → a.isReadOnly = false := by
    intro a ha
    rw [← Bool.not_eq_true, isReadOnly_storage_iff ha]
    exact hdst
  unfold execute
  split
  next hform =>
    have hop := Opcode.eq_nop_of_form hform
    cases fault <;> simp [Fails, hop, Opcode.arity, Opcode.form]
  next hform =>
    have hop := Opcode.eq_dat_of_form hform
    cases fault <;> simp [Fails, hop, Opcode.arity, Opcode.form, eq_comm]
  next hform =>
    have harity : i.opcode.arity = 1 := by simp [Opcode.arity, hform]
    split
    next e he =>
      obtain ⟨hinvalid, rfl⟩ := storage_eq_error_iff.mp he
      rw [m.fails_iff_of_dst_invalid (Nat.le_of_eq harity.symm) hinvalid]
      simp [eq_comm]
    next a ha =>
      have hdiv : i.opcode ≠ .div := Opcode.ne_of_form hform (by decide)
      have hidiv : i.opcode ≠ .idiv := Opcode.ne_of_form hform (by decide)
      rw [m.fails_iff_of_unary harity ha]
      dsimp only
      split <;> simp [hdiv, hidiv]
  next hform =>
    have harity : i.opcode.arity = 1 := by simp [Opcode.arity, hform]
    split
    next e he =>
      obtain ⟨hinvalid, rfl⟩ := storage_eq_error_iff.mp he
      rw [m.fails_iff_of_dst_invalid (Nat.le_of_eq harity.symm) hinvalid]
      simp [eq_comm]
    next a ha =>
      rw [m.fails_iff_of_unary harity ha, ← applyUnary_eq_error_iff (hwritable a ha)]
      exact mk_map_eq_error_iff
  next hform =>
    have harity : i.opcode.arity = 2 := by simp [Opcode.arity, hform]
    split
    next e he =>
      obtain ⟨hinvalid, rfl⟩ := storage_eq_error_iff.mp he
      rw [m.fails_iff_of_dst_invalid (by omega) hinvalid]
      simp [eq_comm]
    next a ha =>
      split
      next e he =>
        obtain ⟨hinvalid, rfl⟩ := storage_eq_error_iff.mp he
        rw [m.fails_iff_of_src_invalid harity hinvalid]
        simp [eq_comm]
      next b hb =>
        rw [m.fails_iff_of_binary harity ha hb, ← applyBinary_eq_error_iff (hwritable a ha)]
        exact mk_map_eq_error_iff

theorem step_eq_error_iff :
    m.step = ⟨m', .error fault⟩ ↔
      m' = m ∧ m.Fails (m.arena.decode m.thread.ip) fault := by
  rw [← execute_eq_error_iff (m.arena.dst_decode_ne_ip m.thread.ip)]
  unfold step
  dsimp only
  split
  next h => rw [h]; simp
  next h => rw [h]; simp
  next h => rw [h]; simp

/-- A step fails exactly in the ways in which its instruction does, and then it
leaves the machine as it was. -/
theorem step_fails_iff (m : Machine) (fault : Fault) :
    (m.step.result = .error fault ↔ m.Fails (m.arena.decode m.thread.ip) fault) ∧
      (m.step.result = .error fault → m.step.machine = m) := by
  have hfault : ∀ h : m.step.result = .error fault,
      m.step.machine = m ∧ m.Fails (m.arena.decode m.thread.ip) fault := by
    intro h
    apply step_eq_error_iff.mp
    rw [← h]
  constructor
  · constructor
    · intro h
      exact (hfault h).2
    · intro h
      rw [step_eq_error_iff.mpr ⟨rfl, h⟩]
  · intro h
    exact (hfault h).1

/-- A word exchanged with the instruction pointer, where the instruction runs
around the end of the arena. -/
theorem step_fails_iff_swap :
    let m : Machine :=
      ⟨{ ip := 0xFFFF }, Arena.empty.writeBytes 0xFFFF 1 [0x0C, 0xE6], 1⟩
    m.step.result = .error .readOnly ∧ m.step.machine = m := by
  intro m
  have hencode : (⟨.swp, .direct, .direct, .ax, .ip⟩ : Instruction).encode [] =
      .ok [0x0C, 0xE6] := rfl
  have hdecode : m.arena.decode m.thread.ip = ⟨.swp, .direct, .direct, .ax, .ip⟩ :=
    (Arena.decode_of_encode hencode (Arena.bytesAt_writeBytes _ _ _ (by decide))).1
  have hstep : m.step.result = .error .readOnly := by
    rw [(step_fails_iff m .readOnly).1, hdecode]
    exact ⟨rfl, by decide, rfl⟩
  exact ⟨hstep, (step_fails_iff m .readOnly).2 hstep⟩

end Machine
end CoreWar
