import CoreWar.Proofs.Arithmetic.Sums
import CoreWar.Step

/-!
# Reading back what was stored

What is put into a storage at a width is read from it at that width, as the storage keeps
it (`read_put`).  A register half keeps a byte only; but no operation is ever wider than a
register half that it writes, so results are read back as they are.

With this, sums and differences are exact from operands to destination
(`sums_exact`): the values are those read at the width of the operation, the
destination holds the exact result modulo the number of values, and the flags tell of the
exact result.
-/

namespace CoreWar

theorem Width.size_le (w : Width) : 256 ≤ w.size := by
  cases w with
  | byte => decide
  | word => decide

theorem Width.toNat_byte_lt (w : Width) (b : UInt8) : b.toUInt16.toNat < w.size := by
  rw [UInt8.toNat_toUInt16]
  exact Nat.lt_of_lt_of_le b.toNat_lt w.size_le

theorem Width.truncate_of_lt {w : Width} {v : UInt16} (h : v.toNat < w.size) :
    w.truncate v = v := by
  apply UInt16.toNat_inj.mp
  rw [toNat_truncate, Nat.mod_eq_of_lt h]

theorem Word.toUInt16_low {v : UInt16} (h : v.toNat < 256) : (low v).toUInt16 = v := by
  apply UInt16.toNat_inj.mp
  rw [UInt8.toNat_toUInt16, toNat_low, Nat.mod_eq_of_lt h]

theorem Arena.byte_writeByte (m : Arena) (a : UInt16) (b pid : UInt8) :
    (m.writeByte a b pid).byte a = b := by
  rw [byte, cell_writeByte, if_pos rfl]

theorem Arena.word_writeWord (m : Arena) (a v : UInt16) (pid : UInt8) :
    (m.writeWord a v pid).word a = v := by
  have hne : a + 1 ≠ a := by
    intro h
    have := congrArg UInt16.toNat h
    rw [UInt16.toNat_add] at this
    have hlt := a.toNat_lt
    simp only [UInt16.toNat_one] at this
    omega
  have hhigh : (m.writeWord a v pid).byte a = Word.high v := by
    rw [writeWord, byte, cell_writeByte, if_neg hne, cell_writeByte, if_pos rfl]
  rw [word, hhigh, writeWord, byte_writeByte, Word.ofBytes_high_low]

namespace Machine

variable (m : Machine)

/-- Values read at a width are values of that width. -/
theorem read_lt (s : Storage) (w : Width) : (m.read s w).toNat < w.size := by
  have htruncate (v : UInt16) : (w.truncate v).toNat < w.size := by
    rw [Width.toNat_truncate]
    exact Nat.mod_lt _ (Nat.lt_of_lt_of_le (by decide) w.size_le)
  cases s with
  | register r part =>
      cases part with
      | low => exact w.toNat_byte_lt _
      | high => exact w.toNat_byte_lt _
      | full => exact htruncate _
  | immediate a => exact htruncate _
  | memory a =>
      cases w with
      | byte => exact Width.toNat_byte_lt _ _
      | word => exact UInt16.toNat_lt _

/-- What is put into a storage is read from it as the storage keeps it. -/
theorem read_put (s : Storage) (v : UInt16) (w : Width) :
    (m.put s v w).read s w = stored s v w := by
  obtain ⟨t, arena, pid⟩ := m
  cases s with
  | register r part =>
      cases part with
      | low =>
          change (Word.low ((t.set r (Word.ofBytes (Word.high (t.get r))
            (Word.low (w.truncate v)))).get r)).toUInt16 = _
          rw [Thread.get_set, if_pos rfl, Word.low_ofBytes]
          rfl
      | high =>
          change (Word.high ((t.set r (Word.ofBytes (Word.low (w.truncate v))
            (Word.low (t.get r)))).get r)).toUInt16 = _
          rw [Thread.get_set, if_pos rfl, Word.high_ofBytes]
          rfl
      | full =>
          change w.truncate ((t.set r (w.truncate v)).get r) = w.truncate v
          rw [Thread.get_set, if_pos rfl, Width.truncate_truncate]
  | immediate a =>
      change w.truncate ((arena.writeWord a (w.truncate v) pid).word a) = w.truncate v
      rw [Arena.word_writeWord, Width.truncate_truncate]
  | memory a =>
      cases w with
      | byte =>
          have hlt : (Width.byte.truncate v).toNat < 256 := by
            rw [Width.toNat_truncate]
            exact Nat.mod_lt _ (by decide)
          change ((arena.writeByte a (Word.low (Width.byte.truncate v)) pid).byte a).toUInt16 = _
          rw [Arena.byte_writeByte, Word.toUInt16_low hlt]
          rfl
      | word => exact arena.word_writeWord a v pid

/-! ## Widths that fit a storage -/

end Machine

/-- An operation at the width is not wider than the storage. -/
def Storage.Admits (s : Storage) (w : Width) : Prop :=
  s.width = .byte → s.isMemory = false → w = .byte

theorem Storage.admits_width (s : Storage) : s.Admits s.width := fun h _ => h

theorem Storage.admits_operationWidth (dst src : Storage) :
    dst.Admits (operationWidth dst src) := by
  intro hwidth hmemory
  simp [operationWidth, isByteOperation, hwidth, hmemory]

namespace Machine

/-- A storage keeps a value of a width that it admits. -/
theorem stored_eq {s : Storage} {v : UInt16} {w : Width} (hs : s.Admits w)
    (hv : v.toNat < w.size) : stored s v w = v := by
  have htruncate := Width.truncate_of_lt hv
  cases s with
  | register r part =>
      cases part with
      | low =>
          obtain rfl : w = .byte := hs rfl rfl
          rw [stored, htruncate, Word.toUInt16_low hv]
      | high =>
          obtain rfl : w = .byte := hs rfl rfl
          rw [stored, htruncate, Word.toUInt16_low hv]
      | full => exact htruncate
  | immediate a => exact htruncate
  | memory a => exact htruncate

/-! ## Results in a destination -/

theorem flags_put (m : Machine) (s : Storage) (v : UInt16) (w : Width) :
    (m.put s v w).thread.flags = m.thread.flags := by
  cases s with
  | register r part => cases part <;> exact Thread.flags_set _ _ _
  | immediate a => rfl
  | memory a => cases w <;> rfl

/-- An operation leaves a result: its value is read from the destination, its flags are those
of the thread, and nothing else has changed. -/
structure Delivers (m : Machine) (o : Outcome Unit) (dst : Storage) (w : Width)
    (r : Alu.Result) : Prop where
  result_eq : o.result = .ok ()
  machine_eq : o.machine = (m.withFlags r.flags).put dst r.value w
  read_eq : o.machine.read dst w = r.value
  flags_eq : o.machine.thread.flags = r.flags

theorem delivers_finish (m : Machine) {dst : Storage} {w : Width} {r : Alu.Result}
    (hdst : dst.isReadOnly = false) (hw : dst.Admits w) (hr : r.value.toNat < w.size) :
    m.Delivers (m.finish dst w r) dst w r := by
  have hfinish : m.finish dst w r = ⟨(m.withFlags r.flags).put dst r.value w, .ok ()⟩ := by
    rw [finish, store, if_neg (by simp [hdst])]
  rw [hfinish]
  exact ⟨rfl, rfl, by rw [read_put, stored_eq hw hr], flags_put _ _ _ _⟩

/-- An operation sets the flags of a result for every destination, and leaves the value there
as well unless the destination cannot be written. -/
structure Concludes (m : Machine) (o : Outcome Unit) (dst : Storage) (w : Width)
    (r : Alu.Result) : Prop where
  flags_eq : o.machine.thread.flags = r.flags
  delivers : dst.isReadOnly = false → m.Delivers o dst w r
  refused : dst.isReadOnly = true → o = ⟨m.withFlags r.flags, .error .readOnly⟩

theorem concludes_finish (m : Machine) {dst : Storage} {w : Width} {r : Alu.Result}
    (hw : dst.Admits w) (hr : r.value.toNat < w.size) :
    m.Concludes (m.finish dst w r) dst w r := by
  have hrefused (h : dst.isReadOnly = true) :
      m.finish dst w r = ⟨m.withFlags r.flags, .error .readOnly⟩ := by
    rw [finish, store, if_pos h]
  constructor
  · cases h : dst.isReadOnly with
    | true =>
        rw [hrefused h]
        rfl
    | false => exact (m.delivers_finish h hw hr).flags_eq
  · exact fun h => m.delivers_finish h hw hr
  · exact hrefused

/-! ## Exact sums -/

/-- An operation stores the result of the exact numbers `u`, for unsigned values, and `s`,
for signed ones, and its flags tell of them. -/
structure Stores (m : Machine) (o : Outcome Unit) (dst : Storage) (w : Width) (u s : Int) :
    Prop where
  result_eq : o.result = .ok ()
  reports : ∃ r : Alu.Result, r.Reports w u s ∧ o.machine.read dst w = r.value ∧
    o.machine.thread.flags = r.flags ∧ o.machine = (m.withFlags r.flags).put dst r.value w

variable {m : Machine} {dst : Storage} {w : Width} {u s : Int}

theorem stores_finish {r : Alu.Result} (hdst : dst.isReadOnly = false) (hw : dst.Admits w)
    (hr : r.Reports w u s) :
    m.Stores (m.finish dst w r) dst w u s := by
  obtain ⟨hresult, hmachine, hread, hflags⟩ := m.delivers_finish hdst hw hr.value_lt
  exact ⟨hresult, r, hr, hread, hflags, hmachine⟩

/-- Sums, differences and negations are exact: what is stored is the exact result modulo
the number of values, and the flags tell whether it fits.  A comparison sets the flags of
the difference and stores nothing; a negation is a difference from zero. -/
theorem sums_exact (m : Machine) {dst : Storage} (src : Storage)
    (hdst : dst.isReadOnly = false) :
    let w := Storage.operationWidth dst src
    let a := m.read dst w
    let b := m.read src w
    let v := m.value dst
    m.Stores (m.applyBinary .add dst src) dst w (a.toNat + b.toNat) (w.signed a + w.signed b) ∧
      m.Stores (m.applyBinary .sub dst src) dst w (a.toNat - b.toNat)
        (w.signed a - w.signed b) ∧
      m.applyBinary .cmp dst src =
        ⟨m.withFlags (m.applyBinary .sub dst src).machine.thread.flags, .ok ()⟩ ∧
      m.Stores (m.applyUnary .neg dst) dst dst.width (0 - v.toNat) (0 - dst.width.signed v) ∧
      m.applyUnary .neg dst = m.finish dst dst.width (Alu.sub dst.width 0 v) := by
  intro w a b v
  have ha : a.toNat < w.size := m.read_lt dst w
  have hb : b.toNat < w.size := m.read_lt src w
  have hv : v.toNat < dst.width.size := m.read_lt dst dst.width
  have hw : dst.Admits w := dst.admits_operationWidth src
  refine ⟨?_, ?_, ?_, ?_, ?_⟩
  · exact stores_finish hdst hw (Alu.reports_add ha hb)
  · exact stores_finish hdst hw (Alu.reports_sub ha hb)
  · obtain ⟨-, r, hr, -, hflags, -⟩ := stores_finish (m := m) hdst hw (Alu.reports_sub ha hb)
    have hsame : r = Alu.sub w a b := hr.eq (Alu.reports_sub ha hb)
    change (⟨m.withFlags (Alu.sub w a b).flags, .ok ()⟩ : Outcome Unit) = _
    rw [← hsame, ← hflags]
    rfl
  · exact stores_finish hdst dst.admits_width (Alu.reports_neg hv)
  · change m.finish dst dst.width (Alu.neg dst.width v) = _
    rw [Alu.neg_eq_sub hv]

/-- A thread whose register holds the lowest signed byte in both halves. -/
def lowestBytes : Machine where
  thread := { ax := 0x8080 }
  arena := .empty
  pid := 1

/-- Two lowest bytes add up to zero, with both carry and overflow, and the lowest byte is
its own negation, with overflow. -/
theorem sums_exact_lowestBytes :
    (Storage.register .ax .low).isReadOnly = false ∧
      lowestBytes.Stores
        (lowestBytes.applyBinary .add (.register .ax .low) (.register .ax .high))
        (.register .ax .low) .byte 256 (-256) ∧
      lowestBytes.Stores (lowestBytes.applyUnary .neg (.register .ax .low))
        (.register .ax .low) .byte (-128) 128 := by
  have hdst : (Storage.register .ax .low).isReadOnly = false := rfl
  have hlow : lowestBytes.read (.register .ax .low) .byte = 0x80 := by decide +kernel
  have hhigh : lowestBytes.read (.register .ax .high) .byte = 0x80 := by decide +kernel
  have hsigned : Width.byte.signed 0x80 = -128 := by decide +kernel
  have hwidth : Storage.operationWidth (.register .ax .low) (.register .ax .high) = .byte := rfl
  obtain ⟨hadd, -, -, hneg, -⟩ := sums_exact lowestBytes (.register .ax .high) hdst
  rw [hwidth, hlow, hhigh, hsigned] at hadd
  have hvalue : lowestBytes.value (.register .ax .low) = 0x80 := hlow
  have hown : (Storage.register .ax .low).width = .byte := rfl
  rw [hvalue, hown, hsigned] at hneg
  exact ⟨hdst, hadd, hneg⟩

end Machine
end CoreWar
