import CoreWar.Proofs.Machine.Access
import CoreWar.Proofs.Machine.Faults

/-!
# What a step does to its thread

A step that succeeds moves the instruction pointer in one of two ways: to the target of a
jump that is taken, or past the instruction.  Target and length are those of the machine
before the step, so an instruction that overwrites itself moves it no differently; and no
write reaches the instruction pointer itself.

Of the registers and flags an instruction says which it may change.  The flags follow from
its operation (`Opcode.flags`), the register halves from its operation and the names of its
operands (`Instruction.touched`).  `Machine.Alters` states that nothing else has changed; it
is shown of the operations, of what an instruction executes, and then of the step
(`step_thread`).
-/

namespace CoreWar

/-! ## What an instruction may change -/

/-- One of the condition flags. -/
inductive Flag where
  | «overflow»
  | sign
  | zero
  | carry
  deriving DecidableEq, Repr

/-- All flags. -/
def Flag.all : List Flag := [.«overflow», .sign, .zero, .carry]

theorem Flag.mem_all (f : Flag) : f ∈ all := by
  cases f <;> decide

/-- The state of a flag. -/
def Flags.get (fs : Flags) : Flag → Bool
  | .«overflow» => fs.«overflow»
  | .sign => fs.sign
  | .zero => fs.zero
  | .carry => fs.carry

/-- The flags that an operation may change. -/
def Opcode.flags : Opcode → List Flag
  | .neg | .add | .sub | .cmp | .and | .or | .xor | .shl | .shr => Flag.all
  | .inc | .dec => [.«overflow», .sign, .zero]
  | .mul | .imul => [.«overflow», .carry]
  | .div | .idiv => [.«overflow»]
  | _ => []

/-- The register halves that products and quotients use. -/
def Half.accumulator : List Half := [.high .bx, .low .bx, .high .ax, .low .ax]

/-- The register halves that an operation may change, given those of its destination and of
its source. -/
def Opcode.touches (op : Opcode) (dst src : List Half) : List Half :=
  match op with
  | .mov | .add | .sub | .and | .or | .xor | .shl | .shr | .neg | .not | .inc | .dec => dst
  | .swp => dst ++ src
  | .mul | .imul | .div | .idiv => Half.accumulator
  | _ => []

/-- The register halves that an operand names. -/
def Location.halves : Location → List Half
  | .al => [.low .ax]
  | .ah => [.high .ax]
  | .bl => [.low .bx]
  | .bh => [.high .bx]
  | .cl => [.low .cx]
  | .ch => [.high .cx]
  | .ax => [.high .ax, .low .ax]
  | .bx => [.high .bx, .low .bx]
  | .cx => [.high .cx, .low .cx]
  | .ip => [.high .ip, .low .ip]
  | .pax | .pbx | .pcx | .imd | .pimd | .invalid => []

/-- The register halves that an instruction may change. -/
def Instruction.touched (i : Instruction) : List Half :=
  i.opcode.touches i.dst.halves i.src.halves

namespace Thread

/-- The instruction pointer can move without any other register. -/
theorem half_advance (t : Thread) (k : UInt16) {g : Half} (hg : g.register ≠ .ip) :
    (t.advance k).half g = t.half g :=
  t.half_set_of_ne hg (t.ip + k)

end Thread

/-! ## Operations on values -/

namespace Alu

variable {s : Signedness} {w : Width} {v : UInt16} {f : Flag} {fs : Flags} {t u : Thread}

theorem flags_inc (hf : f ∉ Opcode.inc.flags) : (inc w v fs).flags.get f = fs.get f := by
  cases f with
  | carry => rfl
  | «overflow» | sign | zero => exact absurd (by decide) hf

theorem flags_dec (hf : f ∉ Opcode.dec.flags) : (dec w v fs).flags.get f = fs.get f := by
  cases f with
  | carry => rfl
  | «overflow» | sign | zero => exact absurd (by decide) hf

/-- A shift to the left leaves overflow alone unless it moves by one bit. -/
theorem overflow_shl {n : UInt16} (hn : n ≠ 1) :
    (shl w v n fs).flags.«overflow» = fs.«overflow» := by
  simp only [shl, if_neg hn]
  rfl

theorem multiply_keeps : (multiply s w v t).cx = t.cx ∧ (multiply s w v t).ip = t.ip ∧
    (multiply s w v t).flags.sign = t.flags.sign ∧
    (multiply s w v t).flags.zero = t.flags.zero := by
  unfold multiply
  dsimp only
  cases w with
  | byte => dsimp only; split <;> exact ⟨rfl, rfl, rfl, rfl⟩
  | word => dsimp only; split <;> exact ⟨rfl, rfl, rfl, rfl⟩

theorem divide?_keeps (h : divide? s w v t = some u) : u.cx = t.cx ∧ u.ip = t.ip ∧
    u.flags.sign = t.flags.sign ∧ u.flags.zero = t.flags.zero ∧
    u.flags.carry = t.flags.carry := by
  unfold divide? at h
  split at h
  · cases h
  · cases w with
    | byte => cases h; exact ⟨rfl, rfl, rfl, rfl, rfl⟩
    | word => cases h; exact ⟨rfl, rfl, rfl, rfl, rfl⟩

end Alu

namespace Machine

/-- From a machine to another some register halves and some flags may have changed, and no
others; the instruction pointer has not. -/
structure Alters (m : Machine) (halves : List Half) (flags : List Flag) (n : Machine) :
    Prop where
  half_eq : ∀ g ∉ halves, n.thread.half g = m.thread.half g
  flag_eq : ∀ f ∉ flags, n.thread.flags.get f = m.thread.flags.get f
  ip_eq : n.thread.ip = m.thread.ip

variable {m n : Machine} {i : Instruction} {p : Position} {a b : Storage} {w : Width}
  {fs : List Flag}

theorem Alters.refl (m : Machine) (hs : List Half) (fs : List Flag) : m.Alters hs fs m :=
  ⟨fun _ _ => rfl, fun _ _ => rfl, rfl⟩

/-- The storage of an operand has the register halves that the operand names. -/
theorem halves_of_storage (h : m.storage i p = .ok a) : a.halves = (i.location p).halves := by
  unfold storage at h
  dsimp only at h
  cases hlocation : i.location p <;> rw [hlocation] at h <;> cases h <;> rfl

/-! ## Writes -/

theorem ip_put (m : Machine) (ha : a.isReadOnly = false) (v : UInt16) (w : Width) :
    (m.put a v w).thread.ip = m.thread.ip := by
  cases a with
  | register r part =>
      cases r with
      | ip => cases ha
      | ax | bx | cx => cases part <;> rfl
  | immediate x => rfl
  | memory x => cases w <;> rfl

theorem alters_put (m : Machine) (ha : a.isReadOnly = false) (v : UInt16) (w : Width) :
    m.Alters a.halves [] (m.put a v w) where
  half_eq := (m.touches_put a v w).half_eq
  flag_eq f _ := by rw [flags_put]
  ip_eq := m.ip_put ha v w

theorem alters_finish {r : Alu.Result} (h : (m.finish a w r).result = .ok ())
    (hfs : ∀ f ∉ fs, r.flags.get f = m.thread.flags.get f) :
    m.Alters a.halves fs (m.finish a w r).machine := by
  unfold finish store at h ⊢
  by_cases ha : a.isReadOnly = true
  · rw [if_pos ha] at h
    cases h
  · rw [if_neg ha]
    have hput := (m.withFlags r.flags).alters_put (Bool.eq_false_iff.mpr ha) r.value w
    refine ⟨hput.half_eq, fun f hf => ?_, hput.ip_eq⟩
    exact (hput.flag_eq f List.not_mem_nil).trans (hfs f hf)

theorem alters_copy (h : (m.copy a b).ignore.result = .ok ()) :
    m.Alters a.halves [] (m.copy a b).ignore.machine := by
  unfold copy write Outcome.ignore at h ⊢
  by_cases ha : a.isReadOnly = true
  · rw [if_pos ha] at h
    cases h
  · rw [if_neg ha]
    exact m.alters_put (Bool.eq_false_iff.mpr ha) (m.value b) b.width

theorem alters_swap (h : (m.swap a b).result = .ok ()) :
    m.Alters (a.halves ++ b.halves) [] (m.swap a b).machine := by
  unfold swap at h ⊢
  by_cases hreadOnly : (a.isReadOnly || b.isReadOnly) = true
  · rw [if_pos hreadOnly] at h
    cases h
  · rw [if_neg hreadOnly]
    obtain ⟨ha, hb⟩ := Bool.or_eq_false_iff.mp (Bool.eq_false_iff.mpr hreadOnly)
    have hfirst := m.alters_put ha (m.value b) b.width
    have hsecond := (m.put a (m.value b) b.width).alters_put hb (m.value a) a.width
    refine ⟨fun g hg => ?_, fun f hf => ?_, hsecond.ip_eq.trans hfirst.ip_eq⟩
    · rw [List.mem_append, not_or] at hg
      exact (hsecond.half_eq g hg.2).trans (hfirst.half_eq g hg.1)
    · exact (hsecond.flag_eq f hf).trans (hfirst.flag_eq f hf)

/-- A thread with other contents of `ax` and `bx`. -/
theorem alters_withThread {t : Thread} (hcx : t.cx = m.thread.cx) (hip : t.ip = m.thread.ip)
    (hfs : ∀ f ∉ fs, t.flags.get f = m.thread.flags.get f) :
    m.Alters Half.accumulator fs (m.withThread t) := by
  refine ⟨fun g hg => ?_, hfs, hip⟩
  cases g with
  | low r =>
      cases r with
      | cx => exact congrArg Word.low hcx
      | ip => exact congrArg Word.low hip
      | ax | bx => exact absurd (by decide) hg
  | high r =>
      cases r with
      | cx => exact congrArg Word.high hcx
      | ip => exact congrArg Word.high hip
      | ax | bx => exact absurd (by decide) hg

/-! ## Operations -/

theorem alters_multiply (m : Machine) (s : Signedness) (a : Storage) :
    m.Alters Half.accumulator [.«overflow», .carry] (m.multiply s a) := by
  obtain ⟨hcx, hip, hsign, hzero⟩ := Alu.multiply_keeps (s := s) (w := a.width)
    (v := m.value a) (t := m.thread)
  refine alters_withThread hcx hip fun f hf => ?_
  cases f with
  | sign => exact hsign
  | zero => exact hzero
  | «overflow» | carry => exact absurd (by decide) hf

theorem alters_divide {s : Signedness} (h : (m.divide s a).result = .ok ()) :
    m.Alters Half.accumulator [.«overflow»] (m.divide s a).machine := by
  unfold divide at h ⊢
  dsimp only at h ⊢
  split at h
  next t ht =>
    obtain ⟨hcx, hip, hsign, hzero, hcarry⟩ := Alu.divide?_keeps ht
    refine alters_withThread hcx hip fun f hf => ?_
    cases f with
    | sign => exact hsign
    | zero => exact hzero
    | carry => exact hcarry
    | «overflow» => exact absurd (by decide) hf
  next => cases h

theorem alters_applyUnary {op : Opcode} (h : (m.applyUnary op a).result = .ok ())
    (src : List Half) :
    m.Alters (op.touches a.halves src) op.flags (m.applyUnary op a).machine := by
  cases op with
  | mul => exact m.alters_multiply .unsigned a
  | imul => exact m.alters_multiply .signed a
  | div => exact alters_divide h
  | idiv => exact alters_divide h
  | neg => exact alters_finish h fun f hf => absurd f.mem_all hf
  | not => exact alters_finish h fun _ _ => rfl
  | inc => exact alters_finish h fun _ hf => Alu.flags_inc hf
  | dec => exact alters_finish h fun _ hf => Alu.flags_dec hf
  | _ => exact .refl _ _ _

theorem alters_applyBinary {op : Opcode} (h : (m.applyBinary op a b).result = .ok ()) :
    m.Alters (op.touches a.halves b.halves) op.flags (m.applyBinary op a b).machine := by
  cases op with
  | mov => exact alters_copy h
  | swp => exact alters_swap h
  | cmp => exact ⟨fun _ _ => rfl, fun f hf => absurd f.mem_all hf, rfl⟩
  | add | sub | and | or | xor | shl | shr =>
      exact alters_finish h fun f hf => absurd f.mem_all hf
  | _ => exact .refl _ _ _

theorem overflow_shift_shl (m : Machine) (a : Storage) (hb : m.value b ≠ 1) :
    (m.shift a b Alu.shl).machine.thread.flags.«overflow» = m.thread.flags.«overflow» := by
  unfold shift finish store
  dsimp only
  split
  · exact Alu.overflow_shl hb
  · rw [flags_put]
    exact Alu.overflow_shl hb

/-! ## Instructions -/

theorem isTaken_of_form {op : Opcode} (h : op.form ≠ .jump) (f : Flags) :
    op.isTaken f = false :=
  Bool.eq_false_iff.mpr fun htaken => h (Opcode.form_of_isTaken htaken)

theorem Executes.isTaken_eq {jumped : Bool} (h : m.Executes i n jumped) :
    i.opcode.isTaken m.thread.flags = jumped := by
  cases h with
  | idle hform => exact isTaken_of_form (by simp [hform]) _
  | stays _ _ htaken => exact htaken
  | jumps _ _ htaken => exact htaken
  | unary hform _ _ => exact isTaken_of_form (by simp [hform]) _
  | binary hform _ _ _ => exact isTaken_of_form (by simp [hform]) _

theorem Executes.alters (h : m.Executes i n false) :
    m.Alters i.touched i.opcode.flags n := by
  cases h with
  | idle _ => exact .refl _ _ _
  | stays _ _ _ => exact .refl _ _ _
  | unary _ ha hok =>
      have halters := alters_applyUnary hok i.src.halves
      rw [halves_of_storage ha] at halters
      exact halters
  | binary _ ha hb hok =>
      have halters := alters_applyBinary hok
      rw [halves_of_storage ha, halves_of_storage hb] at halters
      exact halters

/-- A jump that is taken moves the instruction pointer and does nothing else. -/
theorem Executes.jumped (h : m.Executes i n true) :
    ∃ a, m.storage i .destination = .ok a ∧
      n.thread = { m.thread with ip := i.dstMode.address m.thread.ip (m.value a) } := by
  cases h with
  | jumps _ ha _ => exact ⟨_, ha, rfl⟩

theorem Executes.overflow_eq {jumped : Bool} (h : m.Executes i n jumped)
    (hshl : i.opcode = .shl) (hb : m.storage i .source = .ok b) (hne : m.value b ≠ 1) :
    n.thread.flags.«overflow» = m.thread.flags.«overflow» := by
  cases h with
  | idle _ => rfl
  | stays _ _ _ => rfl
  | jumps _ _ _ => rfl
  | unary hform _ _ =>
      rw [hshl] at hform
      cases hform
  | @binary a b' _ _ hb' _ =>
      obtain rfl : b' = b := Except.ok.inj (hb'.symm.trans hb)
      rw [hshl]
      exact m.overflow_shift_shl a hne

/-! ## Steps -/

/-- The thread after a step that succeeds, by the machine before it.  The instruction
pointer stands at the target of a jump that is taken, or behind the instruction; the debt
is the same, and so are the flags and register halves that the instruction does not say it
may change.  A shift to the left changes overflow only if it moves by one bit. -/
theorem step_thread (m : Machine) {i : Instruction} (h : m.step.result = .ok i) :
    i = m.arena.decode m.thread.ip ∧
      (i.opcode.isTaken m.thread.flags = true → ∃ a, m.storage i .destination = .ok a ∧
        m.step.machine.thread.ip = i.dstMode.address m.thread.ip (m.value a)) ∧
      (i.opcode.isTaken m.thread.flags = false →
        m.step.machine.thread.ip = m.thread.ip + i.size) ∧
      m.step.machine.thread.debt = m.thread.debt ∧
      (∀ f ∉ i.opcode.flags, m.step.machine.thread.flags.get f = m.thread.flags.get f) ∧
      (i.opcode = .shl → ∀ b, m.storage i .source = .ok b → m.value b ≠ 1 →
        m.step.machine.thread.flags.«overflow» = m.thread.flags.«overflow») ∧
      ∀ g : Half, g.register ≠ .ip → g ∉ i.touched →
        m.step.machine.thread.half g = m.thread.half g := by
  obtain ⟨hi, n, jumped, hexecutes, hmachine⟩ := exists_execute_of_step h
  have hdebt := m.debt_step
  refine ⟨hi, ?_⟩
  rw [hmachine] at hdebt ⊢
  rw [hexecutes.isTaken_eq]
  cases jumped with
  | true =>
      obtain ⟨a, ha, hthread⟩ := hexecutes.jumped
      rw [if_pos rfl] at hdebt ⊢
      refine ⟨fun _ => ⟨a, ha, by rw [hthread]⟩, nofun, hdebt, fun f _ => by rw [hthread],
        fun hshl b hb hne => hexecutes.overflow_eq hshl hb hne, fun g hg _ => ?_⟩
      rw [hthread]
      exact m.thread.half_set_of_ne hg _
  | false =>
      have halters := hexecutes.alters
      rw [if_neg Bool.false_ne_true] at hdebt ⊢
      refine ⟨nofun, fun _ => congrArg (· + i.size) halters.ip_eq, hdebt, halters.flag_eq,
        fun hshl b hb hne => hexecutes.overflow_eq hshl hb hne, fun g hg htouched => ?_⟩
      exact (n.thread.half_advance i.size hg).trans (halters.half_eq g htouched)

/-- A thread at a copy of `ax` to the cells of the instruction itself.  The copy puts zeros
there, and the header becomes that of an instruction of two bytes. -/
def copyOverSelf : Machine where
  thread := {}
  arena := Arena.empty.writeBytes 0 1 [0x08, 0x6D, 0, 0]
  pid := 1

/-- The thread moves past the four bytes that the copy had. -/
theorem step_thread_copyOverSelf :
    copyOverSelf.step.result = .ok ⟨.mov, .direct, .direct, .pimd, .ax⟩ ∧
      copyOverSelf.step.machine.arena.decode 0 = ⟨.nop, .direct, .direct, .al, .al⟩ ∧
      copyOverSelf.step.machine.thread.ip = 4 := by
  have hresult : copyOverSelf.step.result = .ok ⟨.mov, .direct, .direct, .pimd, .ax⟩ := rfl
  obtain ⟨-, -, hip, -⟩ := step_thread copyOverSelf hresult
  exact ⟨hresult, by decide +kernel, hip rfl⟩

end Machine
end CoreWar
