import CoreWar.Proofs.Machine.Access

/-!
# Exchanging two storages

An exchange reads both sides before it writes either, but it writes them one after the
other, and each at the width of the other.  Storages in general need not be exchanged that
way: of two words that share a cell, the second write spoils the first.  The operands of one
instruction with a width in common never share a part of their bytes: they are the same
storage, or they are apart (`eq_or_apart`).  Bytes and full registers cannot overlap in
part, and the words of an instruction lie behind one another.

So an exchange of such operands exchanges their values, and a second one undoes the first
(`swap_exchanges`).
-/

namespace CoreWar

namespace Storage

variable {a b s : Storage} {r : Register} {g : Half}

/-- Two storages have no byte in common at their own widths. -/
structure Apart (a b : Storage) : Prop where
  half : ∀ g ∈ a.halves, g ∉ b.halves
  cell : ∀ x ∈ a.cells a.width, x ∉ b.cells b.width

theorem low_mem_halves_iff :
    .low r ∈ s.halves ↔ s = .register r .low ∨ s = .register r .full := by
  cases s with
  | register q part => cases part <;> simp [halves, eq_comm]
  | immediate x => simp [halves]
  | memory x => simp [halves]

theorem high_mem_halves_iff :
    .high r ∈ s.halves ↔ s = .register r .high ∨ s = .register r .full := by
  cases s with
  | register q part => cases part <;> simp [halves, eq_comm]
  | immediate x => simp [halves]
  | memory x => simp [halves]

/-- A register half belongs to one storage of each width. -/
theorem eq_of_mem_halves (hwidth : a.width = b.width) (ha : g ∈ a.halves) (hb : g ∈ b.halves) :
    a = b := by
  cases g with
  | low r =>
      rw [low_mem_halves_iff] at ha hb
      obtain rfl | rfl := ha
      · obtain rfl | rfl := hb
        · rfl
        · cases hwidth
      · obtain rfl | rfl := hb
        · cases hwidth
        · rfl
  | high r =>
      rw [high_mem_halves_iff] at ha hb
      obtain rfl | rfl := ha
      · obtain rfl | rfl := hb
        · rfl
        · cases hwidth
      · obtain rfl | rfl := hb
        · cases hwidth
        · rfl

end Storage

namespace Machine

variable {m n : Machine} {i : Instruction} {p q : Position} {a b : Storage}

theorem eq_of_storage_immediate {x : UInt16} (h : m.storage i p = .ok (.immediate x)) :
    i.location p = .imd ∧ x = Arena.immediateAddress i m.thread.ip p := by
  unfold storage at h
  dsimp only at h
  split at h
  case h_14 hlocation =>
    cases h
    exact ⟨hlocation, rfl⟩
  all_goals cases h

/-- The words of an instruction share a cell only if they are the same word. -/
theorem eq_of_mem_immediates {x y c : UInt16} (hx : m.storage i p = .ok (.immediate x))
    (hy : m.storage i q = .ok (.immediate y)) (hcx : c = x ∨ c = x + 1)
    (hcy : c = y ∨ c = y + 1) : x = y := by
  obtain ⟨hp, rfl⟩ := eq_of_storage_immediate hx
  obtain ⟨hq, rfl⟩ := eq_of_storage_immediate hy
  cases p with
  | destination =>
      cases q with
      | destination => rfl
      | source =>
          have hdst : i.dst = .imd := hp
          simp only [Arena.immediateAddress, Instruction.immediateOffset, hdst,
            Location.hasImmediate, if_true, UInt16.add_assoc] at hcx hcy
          obtain rfl | rfl := hcx <;> simp at hcy
  | source =>
      cases q with
      | destination =>
          have hdst : i.dst = .imd := hq
          simp only [Arena.immediateAddress, Instruction.immediateOffset, hdst,
            Location.hasImmediate, if_true, UInt16.add_assoc] at hcx hcy
          obtain rfl | rfl := hcx <;> simp at hcy
      | source => rfl

/-- Operands of an instruction that have the same width overlap as a whole or not at all. -/
theorem eq_or_apart (ha : m.storage i p = .ok a) (hb : m.storage i q = .ok b)
    (hwidth : a.width = b.width) : a = b ∨ a.Apart b := by
  by_cases hab : a = b
  · exact .inl hab
  right
  constructor
  · intro g hga hgb
    exact hab (Storage.eq_of_mem_halves hwidth hga hgb)
  · intro x hxa hxb
    cases a with
    | register r part => cases hxa
    | immediate y =>
        cases b with
        | register r part => cases hxb
        | immediate z =>
            refine hab (congrArg Storage.immediate (eq_of_mem_immediates ha hb (c := x) ?_ ?_))
            · simpa [Storage.cells] using hxa
            · simpa [Storage.cells] using hxb
        | memory z => cases hwidth
    | memory y =>
        cases b with
        | register r part => cases hxb
        | immediate z => cases hwidth
        | memory z =>
            rw [List.mem_singleton.mp hxa] at hxb
            exact hab (congrArg Storage.memory (List.mem_singleton.mp hxb))

/-! ## One exchange -/

/-- A machine has the values of two storages of another exchanged, and all else the same. -/
structure Exchanges (m : Machine) (a b : Storage) (n : Machine) : Prop where
  left_eq : n.value a = m.value b
  right_eq : n.value b = m.value a
  touches : m.Touches (a.halves ++ b.halves) (a.cells a.width ++ b.cells b.width) n

theorem swap_of_writable (m : Machine) (ha : a.isReadOnly = false) (hb : b.isReadOnly = false) :
    m.swap a b = ⟨(m.put a (m.value b) b.width).put b (m.value a) a.width, .ok ()⟩ := by
  rw [swap, if_neg (by simp [ha, hb])]

theorem exchanges_put_put (m : Machine) (hwidth : a.width = b.width) (hab : a = b ∨ a.Apart b) :
    m.Exchanges a b ((m.put a (m.value b) b.width).put b (m.value a) a.width) := by
  have hva : (m.value a).toNat < b.width.size := hwidth ▸ m.read_lt a a.width
  have hvb : (m.value b).toNat < a.width.size := hwidth ▸ m.read_lt b b.width
  have hfirst := m.touches_put a (m.value b) a.width
  have hsecond := (m.put a (m.value b) a.width).touches_put b (m.value a) b.width
  have hleft := m.value_put a hvb
  have hright := (m.put a (m.value b) a.width).value_put b hva
  rw [← hwidth] at hsecond hright ⊢
  refine ⟨?_, hright, hfirst.trans (hwidth ▸ hsecond)⟩
  obtain rfl | happart := hab
  · exact hright
  · -- The second write keeps what the first has put into the other side.
    have hcell : ∀ x ∈ a.cells a.width, x ∉ b.cells a.width := by
      intro x hx
      rw [hwidth]
      exact happart.cell x hx
    have hkept := read_eq_of_bytes_eq (w := a.width)
      (fun g hg => hsecond.half_eq g (happart.half g hg))
      (fun x hx => hsecond.byte_eq (hcell x hx))
    exact hkept.trans hleft

/-! ## Two exchanges -/

/-- An exchange of two operands of an instruction that can be written and have the same
width exchanges their values and changes nothing else; a second one brings back the thread
and all bytes of the arena. -/
theorem swap_exchanges (m : Machine) {i : Instruction} {p q : Position} {a b : Storage}
    (ha : m.storage i p = .ok a) (hb : m.storage i q = .ok b)
    (hwritable : a.isReadOnly = false ∧ b.isReadOnly = false) (hwidth : a.width = b.width) :
    ∃ n k, m.swap a b = ⟨n, .ok ()⟩ ∧ m.Exchanges a b n ∧ n.swap a b = ⟨k, .ok ()⟩ ∧
      k.thread = m.thread ∧ ∀ x, k.arena.byte x = m.arena.byte x := by
  have hab := eq_or_apart ha hb hwidth
  have hswap (m : Machine) := m.swap_of_writable hwritable.1 hwritable.2
  have honce := m.exchanges_put_put hwidth hab
  have htwice := exchanges_put_put
    ((m.put a (m.value b) b.width).put b (m.value a) a.width) hwidth hab
  refine ⟨_, _, hswap m, honce, hswap _, ?_⟩
  obtain ⟨hleft, hcells⟩ := bytes_eq_of_value_eq (htwice.left_eq.trans honce.right_eq)
  obtain ⟨hright, hcells'⟩ := bytes_eq_of_value_eq (htwice.right_eq.trans honce.left_eq)
  apply (honce.touches.trans htwice.touches).restores
  · intro g hg
    simp only [List.mem_append, or_self] at hg
    exact hg.elim (hleft g) (hright g)
  · intro x hx
    simp only [List.mem_append, or_self] at hx
    exact hx.elim (hcells x) (hcells' x)

/-- The two halves of a register, and the two words of an instruction that runs around the
end of the arena. -/
theorem swap_exchanges_neighbours :
    let m : Machine := ⟨{ ax := 0x1234, ip := 0xFFFC }, .empty, 1⟩
    let halves : Instruction := ⟨.swp, .direct, .direct, .al, .ah⟩
    let words : Instruction := ⟨.swp, .direct, .direct, .imd, .imd⟩
    m.storage halves .destination = .ok (.register .ax .low) ∧
      m.storage halves .source = .ok (.register .ax .high) ∧
      (∃ n k, m.swap (.register .ax .low) (.register .ax .high) = ⟨n, .ok ()⟩ ∧
        n.value (.register .ax .low) = 0x12 ∧ n.value (.register .ax .high) = 0x34 ∧
        n.swap (.register .ax .low) (.register .ax .high) = ⟨k, .ok ()⟩ ∧
        k.thread = m.thread) ∧
      m.storage words .destination = .ok (.immediate 0xFFFE) ∧
      m.storage words .source = .ok (.immediate 0) ∧
      ∃ n k, m.swap (.immediate 0xFFFE) (.immediate 0) = ⟨n, .ok ()⟩ ∧
        m.Exchanges (.immediate 0xFFFE) (.immediate 0) n ∧
        n.swap (.immediate 0xFFFE) (.immediate 0) = ⟨k, .ok ()⟩ ∧
        ∀ x, k.arena.byte x = m.arena.byte x := by
  intro m halves words
  have hlow : m.storage halves .destination = .ok (.register .ax .low) := rfl
  have hhigh : m.storage halves .source = .ok (.register .ax .high) := rfl
  have hfirst : m.storage words .destination = .ok (.immediate 0xFFFE) := rfl
  have hsecond : m.storage words .source = .ok (.immediate 0) :=
    congrArg (fun x => Except.ok (Storage.immediate x)) (by decide : (0xFFFC : UInt16) + 4 = 0)
  have hvalues : m.value (.register .ax .low) = 0x34 ∧ m.value (.register .ax .high) = 0x12 := by
    decide +kernel
  obtain ⟨n, k, hswap, hexchanges, hback, hthread, -⟩ :=
    swap_exchanges m hlow hhigh ⟨rfl, rfl⟩ rfl
  obtain ⟨n', k', hswap', hexchanges', hback', -, hbytes⟩ :=
    swap_exchanges m hfirst hsecond ⟨rfl, rfl⟩ rfl
  exact ⟨hlow, hhigh, ⟨n, k, hswap, hexchanges.left_eq.trans hvalues.2,
    hexchanges.right_eq.trans hvalues.1, hback, hthread⟩, hfirst, hsecond, n', k', hswap',
    hexchanges', hback', hbytes⟩

end Machine
end CoreWar
