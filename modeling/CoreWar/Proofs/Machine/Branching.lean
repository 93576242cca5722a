import CoreWar.Proofs.Machine.Readback

/-!
# Comparing and branching

A comparison leaves the flags of a difference, and the jump that follows looks at nothing
else.  The names of the jumps speak of the values that were compared: equal, below, less,
and whether the signed difference fits.  `Opcode.Asks` is what a name says, and the flags
of the difference answer just that (`isTaken_sub_iff`): in particular sign and overflow
differ exactly if the one value is less than the other as signed numbers.

So the two steps together change the instruction pointer and the flags, and they go to the
target of the jump exactly if its condition holds of the operands (`compare_and_branch`).
-/

namespace CoreWar

/-- What a jump asks of two values that have been compared at a width. -/
def Opcode.Asks (op : Opcode) (w : Width) (a b : UInt16) : Prop :=
  match op with
  | .jmp => True
  | .je => a = b
  | .jne => a ≠ b
  | .jc => a.toNat < b.toNat
  | .jnc => b.toNat ≤ a.toNat
  | .jl => w.signed a < w.signed b
  | .jle => w.signed a ≤ w.signed b
  | .jg => w.signed b < w.signed a
  | .jge => w.signed b ≤ w.signed a
  | .jo => Signedness.signed.fits w.size (w.signed a - w.signed b) = false
  | .jno => Signedness.signed.fits w.size (w.signed a - w.signed b) = true
  | _ => False

/-! ## The flags of a difference -/

namespace Alu

variable {w : Width} {a b : UInt16}

theorem carry_sub_iff : (sub w a b).flags.carry = true ↔ a.toNat < b.toNat := by
  rw [← UInt16.lt_iff_toNat_lt]
  exact decide_eq_true_iff

theorem toNat_sub (ha : a.toNat < w.size) (hb : b.toNat < w.size) :
    (sub w a b).value.toNat =
      if a.toNat < b.toNat then a.toNat + w.size - b.toNat else a.toNat - b.toNat := by
  rw [sub, toNat_sum, w.toNat_add_negate_mod ha hb]

theorem zero_sub_iff (ha : a.toNat < w.size) (hb : b.toNat < w.size) :
    (sub w a b).flags.zero = true ↔ a = b := by
  rw [(reports_sub ha hb).zero_iff, ← UInt16.toNat_inj, ← UInt16.toNat_inj, toNat_sub ha hb,
    UInt16.toNat_zero]
  split <;> omega

/-- Sign and overflow differ exactly if the difference is negative as a signed number. -/
theorem sign_ne_overflow_sub_iff (ha : a.toNat < w.size) (hb : b.toNat < w.size) :
    (sub w a b).flags.sign ≠ (sub w a b).flags.overflow ↔ w.signed a < w.signed b := by
  obtain ⟨half, hpos, hhalf⟩ := w.exists_two_mul
  have hreports := reports_sub ha hb
  rw [ne_eq, Bool.eq_iff_iff, hreports.sign_iff, hreports.overflow_iff, ← Bool.not_eq_true,
    Signedness.fits_signed_iff, toNat_sub ha hb, w.signed_eq ha, w.signed_eq hb]
  split <;> split <;> split <;> omega

theorem signed_injective (ha : a.toNat < w.size) (hb : b.toNat < w.size) :
    a = b ↔ w.signed a = w.signed b := by
  rw [← UInt16.toNat_inj, w.signed_eq ha, w.signed_eq hb]
  split <;> split <;> omega

/-- A jump is taken on the flags of a difference exactly if what it asks is so. -/
theorem isTaken_sub_iff (ha : a.toNat < w.size) (hb : b.toNat < w.size) {op : Opcode} :
    op.isTaken (sub w a b).flags = true ↔ op.Asks w a b := by
  have hzero := zero_sub_iff ha hb
  have hless := sign_ne_overflow_sub_iff ha hb
  have hcarry := carry_sub_iff (w := w) (a := a) (b := b)
  have hoverflow := (reports_sub ha hb).overflow_iff
  have hequal := signed_injective ha hb
  have hsame : (sub w a b).flags.sign = (sub w a b).flags.overflow ↔
      w.signed b ≤ w.signed a := by
    rw [← Int.not_lt, ← hless, ne_eq, Decidable.not_not]
  cases op with
  | jmp => exact iff_of_true rfl trivial
  | je => exact hzero
  | jne =>
      simp only [Opcode.isTaken, Opcode.Asks, Bool.not_eq_true', ← Bool.not_eq_true, hzero,
        ne_eq]
  | jc => exact hcarry
  | jnc =>
      simp only [Opcode.isTaken, Opcode.Asks, Bool.not_eq_true', ← Bool.not_eq_true, hcarry,
        Nat.not_lt]
  | jl => simpa only [Opcode.isTaken, Opcode.Asks, bne_iff_ne] using hless
  | jle =>
      simp only [Opcode.isTaken, Opcode.Asks, Bool.or_eq_true, bne_iff_ne, hzero, hless, hequal]
      omega
  | jg =>
      simp only [Opcode.isTaken, Opcode.Asks, Bool.and_eq_true, Bool.not_eq_true', beq_iff_eq,
        ← Bool.not_eq_true, hzero, hsame, hequal]
      omega
  | jge => simpa only [Opcode.isTaken, Opcode.Asks, beq_iff_eq] using hsame
  | jo => exact hoverflow
  | jno =>
      simp only [Opcode.isTaken, Opcode.Asks, Bool.not_eq_true', ← Bool.not_eq_true, hoverflow,
        Decidable.not_not]
  | _ => exact iff_of_false Bool.false_ne_true id

end Alu

namespace Machine

variable {m : Machine} {i j : Instruction} {a b c : Storage}

/-! ## The two steps -/

theorem step_compare (hi : m.arena.decode m.thread.ip = i) (hcmp : i.opcode = .cmp)
    (ha : m.storage i .destination = .ok a) (hb : m.storage i .source = .ok b) :
    m.step = ⟨(m.compare a b).advance i.size, .ok i⟩ := by
  have hexecute : m.execute i = ⟨m.compare a b, .ok false⟩ := by
    simp only [execute, hcmp, Opcode.form, ha, hb]
    rfl
  rw [step, hi, hexecute]

theorem step_jump (hj : m.arena.decode m.thread.ip = j) (hjump : j.opcode.isJump = true)
    (hc : m.storage j .destination = .ok c) :
    m.step =
      ⟨if j.opcode.isTaken m.thread.flags then m.jump j.dstMode (m.value c)
        else m.advance j.size, .ok j⟩ := by
  have hform : j.opcode.form = .jump := beq_iff_eq.mp hjump
  rw [step, hj]
  cases htaken : j.opcode.isTaken m.thread.flags with
  | true => simp [execute, hform, hc, htaken]
  | false => simp [execute, hform, hc, htaken]

/-- A comparison and a jump change nothing but the instruction pointer and the flags, and
the jump is taken exactly if what it asks is so of the operands that were compared. -/
theorem compare_and_branch (m : Machine) {i j : Instruction} {a b c : Storage}
    (hi : m.arena.decode m.thread.ip = i) (hcmp : i.opcode = .cmp)
    (ha : m.storage i .destination = .ok a) (hb : m.storage i .source = .ok b)
    (hj : m.arena.decode (m.thread.ip + i.size) = j) (hjump : j.opcode.isJump = true)
    (hc : (m.advance i.size).storage j .destination = .ok c) :
    let w := Storage.operationWidth a b
    let asks := j.opcode.Asks w (m.read a w) (m.read b w)
    let next := m.thread.ip + i.size
    ∃ (f : Flags) (ip : UInt16),
      m.step = ⟨⟨{ m.thread with ip := next, flags := f }, m.arena, m.pid⟩, .ok i⟩ ∧
        m.step.machine.step =
          ⟨⟨{ m.thread with ip := ip, flags := f }, m.arena, m.pid⟩, .ok j⟩ ∧
        (j.opcode.isTaken f = true ↔ asks) ∧
        (asks → ip = j.dstMode.address next ((m.advance i.size).value c)) ∧
        (¬asks → ip = next + j.size) := by
  intro w asks next
  have hcompare := step_compare hi hcmp ha hb
  have htaken :
      j.opcode.isTaken ((m.compare a b).advance i.size).thread.flags = true ↔ asks :=
    Alu.isTaken_sub_iff (m.read_lt a w) (m.read_lt b w)
  -- The flags take no part in finding the operand of the jump.
  have hbranch := step_jump (m := (m.compare a b).advance i.size) hj hjump hc
  rw [hcompare, hbranch]
  by_cases hasks : asks
  · refine ⟨(m.compare a b).thread.flags, _, rfl, ?_, htaken, fun _ => rfl,
      fun hnot => absurd hasks hnot⟩
    rw [if_pos (htaken.mpr hasks)]
    rfl
  · refine ⟨(m.compare a b).thread.flags, _, rfl, ?_, htaken, fun hyes => absurd hyes hasks,
      fun _ => rfl⟩
    rw [if_neg (mt htaken.mp hasks)]
    rfl

/-- A thread that compares the lowest word, in `ax`, with one, in `bx`, and jumps if it is
less. -/
def lowestWord : Machine where
  thread := { ax := 0x8000, bx := 1 }
  arena := Arena.empty.writeBytes 0 1 [0x4C, 0x76, 0x66, 0x0C, 0, 0x10]
  pid := 1

/-- The jump is taken, since the lowest word is less as a signed number only. -/
theorem compare_and_branch_lowestWord :
    lowestWord.arena.decode 0 = ⟨.cmp, .direct, .direct, .ax, .bx⟩ ∧
      lowestWord.arena.decode 2 = ⟨.jl, .relative, .direct, .imd, .al⟩ ∧
      (lowestWord.advance 2).storage ⟨.jl, .relative, .direct, .imd, .al⟩ .destination =
        .ok (.immediate 4) ∧
      ∃ f, lowestWord.step.machine.step =
        ⟨⟨{ lowestWord.thread with ip := 18, flags := f }, lowestWord.arena, 1⟩,
          .ok ⟨.jl, .relative, .direct, .imd, .al⟩⟩ := by
  have hcmp : lowestWord.arena.decode 0 = ⟨.cmp, .direct, .direct, .ax, .bx⟩ := by
    decide +kernel
  have hjl : lowestWord.arena.decode 2 = ⟨.jl, .relative, .direct, .imd, .al⟩ := by
    decide +kernel
  have htarget : (lowestWord.advance 2).storage ⟨.jl, .relative, .direct, .imd, .al⟩
      .destination = .ok (.immediate 4) := rfl
  have hvalue : (lowestWord.advance 2).value (.immediate 4) = 16 := by
    decide +kernel
  have hless : Width.word.signed (lowestWord.read (.register .ax .full) .word) <
      Width.word.signed (lowestWord.read (.register .bx .full) .word) := by
    decide +kernel
  obtain ⟨f, ip, -, hstep, -, hip, -⟩ := compare_and_branch lowestWord
    (a := .register .ax .full) (b := .register .bx .full) hcmp rfl rfl rfl hjl rfl htarget
  have hip : ip = 2 + (lowestWord.advance 2).value (.immediate 4) := hip hless
  rw [hvalue] at hip
  rw [hip] at hstep
  exact ⟨hcmp, hjl, htarget, f, hstep⟩

end Machine
end CoreWar
