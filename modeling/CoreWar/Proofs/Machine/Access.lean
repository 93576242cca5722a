import CoreWar.Proofs.Machine.Debt
import CoreWar.Proofs.Machine.Effect
import CoreWar.Proofs.Machine.Readback

/-!
# Access to storage

A storage is made of bytes, which are halves of a register or cells of the arena.  What is
read from it depends on these bytes alone, and what is written to it changes no others
(`Touches`).  At its own width the value of a storage says what its bytes are, so to write
back what was read changes nothing but the owners of the cells.

Together these are the laws of a view that can be written (`access_lawful`).  They hold for
storages of all kinds, although the kinds treat widths differently: a register half ignores
the width, a full register and the word inside an instruction are always written as a whole,
and memory has as many cells as the width asks for.
-/

namespace CoreWar

/-- A half of a register. -/
inductive Half where
  | low (r : Register)
  | high (r : Register)
  deriving DecidableEq, Repr

/-- The register that a half belongs to. -/
def Half.register : Half → Register
  | low r | high r => r

namespace Thread

/-- The byte in a half of a register. -/
def half (t : Thread) : Half → UInt8
  | .low r => Word.low (t.get r)
  | .high r => Word.high (t.get r)

variable {t u : Thread}

theorem get_eq_of_half_eq {r : Register} (hlow : u.half (.low r) = t.half (.low r))
    (hhigh : u.half (.high r) = t.half (.high r)) : u.get r = t.get r := by
  rw [← Word.ofBytes_high_low (u.get r), ← Word.ofBytes_high_low (t.get r)]
  rw [show Word.low (u.get r) = Word.low (t.get r) from hlow,
    show Word.high (u.get r) = Word.high (t.get r) from hhigh]

theorem eq_of_half_eq (hhalf : ∀ h, u.half h = t.half h) (hflags : u.flags = t.flags)
    (hdebt : u.debt = t.debt) : u = t := by
  have hget (r : Register) : u.get r = t.get r := get_eq_of_half_eq (hhalf _) (hhalf _)
  have hax : u.ax = t.ax := hget .ax
  have hbx : u.bx = t.bx := hget .bx
  have hcx : u.cx = t.cx := hget .cx
  have hip : u.ip = t.ip := hget .ip
  cases t
  cases u
  subst hax hbx hcx hip hflags hdebt
  rfl

theorem half_set_low (t : Thread) (r : Register) (w : UInt16) :
    (t.set r w).half (.low r) = Word.low w := by
  rw [half, get_set, if_pos rfl]

theorem half_set_high (t : Thread) (r : Register) (w : UInt16) :
    (t.set r w).half (.high r) = Word.high w := by
  rw [half, get_set, if_pos rfl]

/-- Setting a register changes no half of another. -/
theorem half_set_of_ne {r : Register} {g : Half} (h : g.register ≠ r) (w : UInt16) :
    (t.set r w).half g = t.half g := by
  have hget : (t.set r w).get g.register = t.get g.register := by
    rw [get_set, if_neg (Ne.symm h)]
  cases g with
  | low q => exact congrArg Word.low hget
  | high q => exact congrArg Word.high hget

end Thread

theorem Arena.bytes_eq_of_word_eq {m n : Arena} {x : UInt16} (h : m.word x = n.word x) :
    m.byte x = n.byte x ∧ m.byte (x + 1) = n.byte (x + 1) := by
  have hhigh := congrArg Word.high h
  have hlow := congrArg Word.low h
  simp only [word, Word.high_ofBytes, Word.low_ofBytes] at hhigh hlow
  exact ⟨hhigh, hlow⟩

namespace Storage

/-- The register halves of a storage. -/
def halves : Storage → List Half
  | .register r .low => [.low r]
  | .register r .high => [.high r]
  | .register r .full => [.high r, .low r]
  | .immediate _ | .memory _ => []

/-- The number of values that a storage holds at a width.  A register half holds a byte at
any width. -/
def capacity (s : Storage) (w : Width) : Nat :=
  match s with
  | .register _ .low | .register _ .high => 256
  | .register _ .full | .immediate _ | .memory _ => w.size

end Storage

namespace Machine

/-- From a machine to another some register halves and some cells may have changed, and
nothing else; the cells belong to the player then. -/
structure Touches (m : Machine) (halves : List Half) (cells : List UInt16) (n : Machine) :
    Prop where
  half_eq : ∀ h ∉ halves, n.thread.half h = m.thread.half h
  flags_eq : n.thread.flags = m.thread.flags
  debt_eq : n.thread.debt = m.thread.debt
  signed : Arena.Signed m.pid cells m.arena n.arena
  pid_eq : n.pid = m.pid

variable {m n k : Machine} {s : Storage} {w : Width}

theorem Touches.trans {hs hs' : List Half} {xs xs' : List UInt16} (h : m.Touches hs xs n)
    (h' : n.Touches hs' xs' k) : m.Touches (hs ++ hs') (xs ++ xs') k where
  half_eq g hg := by
    rw [List.mem_append, not_or] at hg
    rw [h'.half_eq g hg.2, h.half_eq g hg.1]
  flags_eq := h'.flags_eq.trans h.flags_eq
  debt_eq := h'.debt_eq.trans h.debt_eq
  signed := h.signed.trans (h.pid_eq ▸ h'.signed)
  pid_eq := h'.pid_eq.trans h.pid_eq

theorem Touches.byte_eq {hs : List Half} {xs : List UInt16} (h : m.Touches hs xs n) {x : UInt16}
    (hx : x ∉ xs) : n.arena.byte x = m.arena.byte x :=
  congrArg Cell.byte (h.signed.cell_eq x hx)

/-! ## Reading -/

/-- What is read depends on the bytes of the storage alone. -/
theorem read_eq_of_bytes_eq (hhalf : ∀ h ∈ s.halves, n.thread.half h = m.thread.half h)
    (hcell : ∀ x ∈ s.cells w, n.arena.byte x = m.arena.byte x) : n.read s w = m.read s w := by
  have hword {a : UInt16} (ha : a ∈ s.cells w) (ha' : a + 1 ∈ s.cells w) :
      n.arena.word a = m.arena.word a := by
    rw [Arena.word, Arena.word, hcell a ha, hcell (a + 1) ha']
  cases s with
  | register r part =>
      cases part with
      | low => exact congrArg UInt8.toUInt16 (hhalf (.low r) (by simp [Storage.halves]))
      | high => exact congrArg UInt8.toUInt16 (hhalf (.high r) (by simp [Storage.halves]))
      | full =>
          exact congrArg w.truncate (Thread.get_eq_of_half_eq
            (hhalf (.low r) (by simp [Storage.halves]))
            (hhalf (.high r) (by simp [Storage.halves])))
  | immediate a =>
      exact congrArg w.truncate (hword (by simp [Storage.cells]) (by simp [Storage.cells]))
  | memory a =>
      cases w with
      | byte => exact congrArg UInt8.toUInt16 (hcell a (by simp [Storage.cells]))
      | word => exact hword (by simp [Storage.cells]) (by simp [Storage.cells])

/-- At its own width the value of a storage says what its bytes are. -/
theorem bytes_eq_of_value_eq (h : n.value s = m.value s) :
    (∀ g ∈ s.halves, n.thread.half g = m.thread.half g) ∧
      ∀ x ∈ s.cells s.width, n.arena.byte x = m.arena.byte x := by
  have hbyte {b c : UInt8} (hbc : b.toUInt16 = c.toUInt16) : b = c := by
    apply UInt8.toNat_inj.mp
    simpa using congrArg UInt16.toNat hbc
  cases s with
  | register r part =>
      refine ⟨?_, by simp [Storage.cells]⟩
      cases part with
      | low =>
          have hlow : n.thread.half (.low r) = m.thread.half (.low r) := hbyte h
          simpa [Storage.halves] using hlow
      | high =>
          have hhigh : n.thread.half (.high r) = m.thread.half (.high r) := hbyte h
          simpa [Storage.halves] using hhigh
      | full =>
          have hget : n.thread.get r = m.thread.get r := h
          simp [Storage.halves, Thread.half, hget]
  | immediate a =>
      have hword : n.arena.word a = m.arena.word a := h
      simpa [Storage.halves, Storage.cells] using Arena.bytes_eq_of_word_eq hword
  | memory a =>
      refine ⟨by simp [Storage.halves], ?_⟩
      have hcell : n.arena.byte a = m.arena.byte a := hbyte h
      simpa [Storage.cells, Storage.width] using hcell

/-! ## Writing -/

/-- A write to a register keeps the halves that are not part of the storage. -/
theorem half_put_register (m : Machine) {r : Register} {part : Part} {v : UInt16} {g : Half}
    (hg : g ∉ (Storage.register r part).halves) :
    (m.put (.register r part) v w).thread.half g = m.thread.half g := by
  by_cases hr : g.register = r
  · -- A half of the register itself is kept only beside the other one.
    subst hr
    cases part with
    | low =>
        cases g with
        | low q => exact absurd List.mem_cons_self hg
        | high q => exact (Thread.half_set_high _ _ _).trans (Word.high_ofBytes _ _)
    | high =>
        cases g with
        | low q => exact (Thread.half_set_low _ _ _).trans (Word.low_ofBytes _ _)
        | high q => exact absurd List.mem_cons_self hg
    | full =>
        cases g with
        | low q => exact absurd (List.mem_cons_of_mem _ List.mem_cons_self) hg
        | high q => exact absurd List.mem_cons_self hg
  · cases part with
    | low => exact Thread.half_set_of_ne hr _
    | high => exact Thread.half_set_of_ne hr _
    | full => exact Thread.half_set_of_ne hr _

theorem touches_put (m : Machine) (s : Storage) (v : UInt16) (w : Width) :
    m.Touches s.halves (s.cells w) (m.put s v w) where
  half_eq g hg := by
    cases s with
    | register r part => exact half_put_register m hg
    | immediate a => rfl
    | memory a => cases w <;> rfl
  flags_eq := m.flags_put s v w
  debt_eq := m.debt_put s v w
  signed := m.signed_put s v w
  pid_eq := m.pid_put s v w

/-- Where the bytes that may have changed are the same again, nothing has changed but owners
of cells. -/
theorem Touches.restores {hs : List Half} {xs : List UInt16} (h : m.Touches hs xs n)
    (hhalf : ∀ g ∈ hs, n.thread.half g = m.thread.half g)
    (hcell : ∀ x ∈ xs, n.arena.byte x = m.arena.byte x) :
    n.thread = m.thread ∧ ∀ x, n.arena.byte x = m.arena.byte x := by
  constructor
  · refine Thread.eq_of_half_eq (fun g => ?_) h.flags_eq h.debt_eq
    by_cases hg : g ∈ hs
    · exact hhalf g hg
    · exact h.half_eq g hg
  · intro x
    by_cases hx : x ∈ xs
    · exact hcell x hx
    · exact h.byte_eq hx

theorem value_put {v : UInt16} (m : Machine) (s : Storage) (hv : v.toNat < s.width.size) :
    (m.put s v s.width).value s = v := by
  rw [value, read_put, stored_eq s.admits_width hv]

theorem write_of_writable (m : Machine) (hs : s.isReadOnly = false) (v : UInt16) (w : Width) :
    m.write s v w = ⟨m.put s v w, .ok (stored s v w)⟩ := by
  rw [write, if_neg (by simp [hs])]

theorem toNat_stored (s : Storage) (v : UInt16) (w : Width) :
    (stored s v w).toNat = v.toNat % s.capacity w := by
  have hhalf : ((Word.low (w.truncate v)).toUInt16).toNat = v.toNat % 256 := by
    rw [UInt8.toNat_toUInt16, Word.toNat_low, Width.toNat_truncate]
    cases w with
    | byte => exact Nat.mod_mod _ _
    | word => exact Nat.mod_mod_of_dvd _ (by decide)
  cases s with
  | register r part =>
      cases part with
      | low => exact hhalf
      | high => exact hhalf
      | full => exact w.toNat_truncate v
  | immediate a => exact w.toNat_truncate v
  | memory a => exact w.toNat_truncate v

theorem high_truncate_byte (v : UInt16) : Word.high (Width.byte.truncate v) = 0 := by
  apply UInt8.toNat_inj.mp
  rw [Word.toNat_high, Width.toNat_truncate]
  exact Nat.div_eq_of_lt (Nat.mod_lt _ (by decide))

/-- A full register that is written as a byte has no high byte left. -/
theorem half_high_put_byte (m : Machine) (r : Register) (v : UInt16) :
    (m.put (.register r .full) v .byte).thread.half (.high r) = 0 :=
  (Thread.half_set_high _ _ _).trans (high_truncate_byte v)

/-- The word inside an instruction that is written as a byte has no high byte left. -/
theorem byte_put_byte (m : Machine) (a : UInt16) (v : UInt16) :
    (m.put (.immediate a) v .byte).arena.byte a = 0 := by
  have hword : (m.put (.immediate a) v .byte).arena.word a = Width.byte.truncate v :=
    m.arena.word_writeWord a _ m.pid
  rw [← Word.high_ofBytes ((m.put (.immediate a) v .byte).arena.byte a), ← high_truncate_byte v,
    ← hword]
  rfl

/-- The laws of access.  What is written is read back as far as the storage holds it at the
width, and nothing outside the storage has changed; a storage of two bytes that is written
as a byte has no high byte left; and to write back what was read, at the storage's own
width, leaves the thread and all bytes of the arena as they were.  The instruction pointer
refuses, and nothing changes. -/
theorem access_lawful (m : Machine) (s : Storage) :
    (s.isReadOnly = false →
      (∀ (v : UInt16) (w : Width), ∃ (n : Machine) (r : UInt16), m.write s v w = ⟨n, .ok r⟩ ∧
        r.toNat = v.toNat % s.capacity w ∧ n.read s w = r ∧
        m.Touches s.halves (s.cells w) n ∧
        (∀ q, s = .register q .full → w = .byte → n.thread.half (.high q) = 0) ∧
        ∀ a, s = .immediate a → w = .byte → n.arena.byte a = 0) ∧
      ∃ (n : Machine) (r : UInt16), m.write s (m.value s) s.width = ⟨n, .ok r⟩ ∧
        n.thread = m.thread ∧ ∀ x, n.arena.byte x = m.arena.byte x) ∧
    (s.isReadOnly = true →
      ∀ (v : UInt16) (w : Width), m.write s v w = ⟨m, .error .readOnly⟩) := by
  refine ⟨fun hs => ⟨fun v w => ?_, ?_⟩, fun hs v w => ?_⟩
  · refine ⟨m.put s v w, stored s v w, m.write_of_writable hs v w, toNat_stored s v w,
      m.read_put s v w, m.touches_put s v w, ?_, ?_⟩
    · rintro q rfl rfl
      exact m.half_high_put_byte q v
    · rintro a rfl rfl
      exact m.byte_put_byte a v
  · refine ⟨_, _, m.write_of_writable hs _ _, ?_⟩
    have hvalue := m.value_put s (m.read_lt s s.width)
    obtain ⟨hhalf, hcell⟩ := bytes_eq_of_value_eq hvalue
    exact (m.touches_put s (m.value s) s.width).restores hhalf hcell
  · rw [write, if_pos hs]

/-- A word that is written around the end of the arena is read back from its last cell and
its first, a register half that is written as a word takes the low byte, and the
instruction pointer refuses. -/
theorem access_lawful_aroundEnd :
    let m : Machine := ⟨{ ax := 0x1234 }, .empty, 1⟩
    (Storage.memory 0xFFFF).isReadOnly = false ∧
      (∃ n r, m.write (.memory 0xFFFF) 0xABCD .word = ⟨n, .ok r⟩ ∧ r.toNat = 0xABCD ∧
        n.read (.memory 0xFFFF) .word = r ∧ m.Touches [] [0xFFFF, 0] n) ∧
      (Storage.register .ax .high).isReadOnly = false ∧
      (∃ n r, m.write (.register .ax .high) 0xABCD .word = ⟨n, .ok r⟩ ∧ r.toNat = 0xCD ∧
        n.read (.register .ax .high) .word = r ∧ m.Touches [.high .ax] [] n) ∧
      (Storage.register .ip .full).isReadOnly = true ∧
      m.write (.register .ip .full) 0xABCD .word = ⟨m, .error .readOnly⟩ := by
  intro m
  obtain ⟨hmemory, -⟩ := (access_lawful m (.memory 0xFFFF)).1 rfl
  obtain ⟨n, r, hwrite, hvalue, hread, htouches, -⟩ := hmemory 0xABCD .word
  obtain ⟨hhalf, -⟩ := (access_lawful m (.register .ax .high)).1 rfl
  obtain ⟨k, q, hwrite', hvalue', hread', htouches', -⟩ := hhalf 0xABCD .word
  exact ⟨rfl, ⟨n, r, hwrite, hvalue, hread, htouches⟩, rfl,
    ⟨k, q, hwrite', hvalue', hread', htouches'⟩, rfl,
    (access_lawful m (.register .ip .full)).2 rfl 0xABCD .word⟩

end Machine
end CoreWar
