import CoreWar.Proofs.Arena.Writes

/-!
# Instructions in the arena

An instruction is its header and its words, one behind the other.  The bytes at
an address and those after it are a list, so what is true of headers and words
as lists is true in the arena wherever they start, also around its end.

A header and what it says determine each other.  Reading a header never fails,
so two headers may say the same: the upper half of the operation codes means
`nop`, and several codes mean that there is no location.  Nothing else is lost.
-/

namespace CoreWar

/-! ## Words -/

theorem Word.flatMap_bytes_injective {ws vs : List UInt16}
    (h : ws.flatMap Word.bytes = vs.flatMap Word.bytes) : ws = vs := by
  induction ws generalizing vs with
  | nil =>
      cases vs with
      | nil => rfl
      | cons v vs => cases h
  | cons w ws ih =>
      cases vs with
      | nil => cases h
      | cons v vs =>
          rw [List.flatMap_cons, List.flatMap_cons] at h
          obtain ⟨hword, hrest⟩ := List.append_inj h rfl
          obtain ⟨hhigh, hlow⟩ := List.cons_eq_cons.mp hword
          rw [← Word.ofBytes_high_low w, hhigh, (List.cons_eq_cons.mp hlow).1,
            Word.ofBytes_high_low, ih hrest]

theorem Word.length_flatMap_bytes (ws : List UInt16) :
    (ws.flatMap Word.bytes).length = 2 * ws.length := by
  induction ws with
  | nil => rfl
  | cons w ws ih =>
      rw [List.flatMap_cons, List.length_append, ih, List.length_cons]
      change 2 + 2 * ws.length = 2 * (ws.length + 1)
      omega

/-! ## Headers -/

namespace Location

variable {p : Position} {l : Location} {n : UInt8}

theorem nibble?_eq_none_iff : l.nibble? p = none ↔ l ∉ p.table := by
  rw [nibble?, Option.map_eq_none_iff, List.findIdx?_eq_none_iff]
  constructor
  · intro h hmem
    simpa using h l hmem
  · intro h x hx
    rw [beq_eq_false_iff_ne]
    rintro rfl
    exact h hx

theorem mem_table_of_nibble? (h : l.nibble? p = some n) : l ∈ p.table := by
  refine Decidable.of_not_not fun hmissing => ?_
  rw [nibble?_eq_none_iff.mpr hmissing] at h
  cases h

theorem ne_invalid_of_mem_table (h : l ∈ p.table) : l ≠ .invalid := by
  have hnone : ∀ p : Position, .invalid ∉ p.table := by
    intro p
    cases p <;> decide
  rintro rfl
  exact hnone p h

theorem toNat_lt_of_nibble? (h : l.nibble? p = some n) : n.toNat < 16 := by
  obtain ⟨k, hk, rfl⟩ := Option.map_eq_some_iff.mp h
  obtain ⟨hlt, -⟩ := List.findIdx?_eq_some_iff_getElem.mp hk
  have hbound := length_table p
  rw [UInt8.toNat_ofNat']
  omega

end Location

namespace Opcode

/-- The lower half of the codes are the codes of the operations. -/
theorem code_ofCode {c : UInt8} (h : c.toNat < 32) : (ofCode c).code = c := by
  have key : ∀ k : Fin 32, (ofCode (UInt8.ofNat k.val)).code = UInt8.ofNat k.val := by decide
  have hc := key ⟨c.toNat, h⟩
  rwa [UInt8.ofNat_toNat] at hc

end Opcode

namespace AccessMode

theorem bit_ofBit (b : UInt8) : (ofBit (b % 2 == 1)).bit = b % 2 := by
  have key : ∀ k : Fin 2, (ofBit (UInt8.ofNat k.val == 1)).bit = UInt8.ofNat k.val := by decide
  have hb := key ⟨b.toNat % 2, Nat.mod_lt _ (by decide)⟩
  have hmod : UInt8.ofNat (b.toNat % 2) = b % 2 := by
    apply UInt8.toNat_inj.mp
    rw [UInt8.toNat_ofNat', UInt8.toNat_mod]
    exact Nat.mod_eq_of_lt (by omega)
  rwa [hmod] at hb

theorem toNat_bit_lt (mode : AccessMode) : mode.bit.toNat < 2 := by
  cases mode <;> decide

theorem ofBit_bit (mode : AccessMode) : ofBit (mode.bit == 1) = mode := by
  cases mode <;> rfl

end AccessMode

namespace Instruction

variable {i : Instruction} {ws : List UInt16} {bytes : List UInt8}

theorem header_eq_ok_iff :
    i.header = .ok bytes ↔ ∃ n₁ n₂, i.dst.nibble? .destination = some n₁ ∧
      i.src.nibble? .source = some n₂ ∧
      bytes = [i.opcode.code * 4 + i.dstMode.bit * 2 + i.srcMode.bit, n₂ * 16 + n₁] := by
  rw [header]
  split
  next h => simp [h]
  next h₁ h₂ => simp [h₂]
  next h₁ h₂ => simp [h₁, h₂, eq_comm]

/-- What has a header has locations that its places admit. -/
theorem location_mem_table_of_header (h : i.header = .ok bytes) (p : Position) :
    i.location p ∈ p.table := by
  obtain ⟨n₁, n₂, hdst, hsrc, -⟩ := header_eq_ok_iff.mp h
  cases p with
  | destination => exact Location.mem_table_of_nibble? hdst
  | source => exact Location.mem_table_of_nibble? hsrc

/-- The three fields of the first byte of a header. -/
theorem first_fields {c d s : UInt8} (hc : c.toNat < 64) (hd : d.toNat < 2) (hs : s.toNat < 2) :
    (c * 4 + d * 2 + s) / 4 = c ∧ (c * 4 + d * 2 + s) / 2 % 2 = d ∧
      (c * 4 + d * 2 + s) % 2 = s := by
  simp only [← UInt8.toNat_inj, UInt8.toNat_div, UInt8.toNat_mod, UInt8.toNat_add, UInt8.toNat_mul,
    UInt8.reduceToNat]
  omega

/-- The two fields of its second byte. -/
theorem second_fields {d s : UInt8} (hd : d.toNat < 16) (hs : s.toNat < 16) :
    (s * 16 + d) / 16 = s ∧ (s * 16 + d) % 16 = d := by
  simp only [← UInt8.toNat_inj, UInt8.toNat_div, UInt8.toNat_mod, UInt8.toNat_add, UInt8.toNat_mul,
    UInt8.reduceToNat]
  omega

theorem ofNibble_mod (p : Position) (n : UInt8) :
    Location.ofNibble p (n % 16) = Location.ofNibble p n := by
  simp [Location.ofNibble]

/-- A header that was written is read as what it was written for. -/
theorem ofHeader_of_header {b₀ b₁ : UInt8} (h : i.header = .ok [b₀, b₁]) :
    ofHeader b₀ b₁ = i := by
  obtain ⟨n₁, n₂, hdst, hsrc, hbytes⟩ := header_eq_ok_iff.mp h
  obtain ⟨rfl, hrest⟩ := List.cons_eq_cons.mp hbytes
  obtain ⟨rfl, -⟩ := List.cons_eq_cons.mp hrest
  have hcode : i.opcode.code.toNat < 64 := by
    have hindex := i.opcode.index.isLt
    rw [Opcode.code, UInt8.toNat_ofNat']
    omega
  obtain ⟨hop, hd, hs⟩ :=
    first_fields hcode i.dstMode.toNat_bit_lt i.srcMode.toNat_bit_lt
  obtain ⟨hhigh, hlow⟩ :=
    second_fields (Location.toNat_lt_of_nibble? hdst) (Location.toNat_lt_of_nibble? hsrc)
  rw [ofHeader, hop, hd, hs, hhigh, ← ofNibble_mod .destination, hlow, Opcode.ofCode_code,
    AccessMode.ofBit_bit, AccessMode.ofBit_bit, Location.ofNibble_of_nibble? hdst,
    Location.ofNibble_of_nibble? hsrc]

/-- A header whose operation and locations exist is written as it was read. -/
theorem header_ofHeader {b₀ b₁ : UInt8} (hop : (b₀ / 4).toNat < 32)
    (hdst : (ofHeader b₀ b₁).dst ≠ .invalid) (hsrc : (ofHeader b₀ b₁).src ≠ .invalid) :
    (ofHeader b₀ b₁).header = .ok [b₀, b₁] := by
  refine header_eq_ok_iff.mpr ⟨_, _, Location.nibble?_ofNibble hdst,
    Location.nibble?_ofNibble hsrc, ?_⟩
  have hfirst : b₀ / 4 * 4 + b₀ / 2 % 2 * 2 + b₀ % 2 = b₀ := by
    apply UInt8.toNat_inj.mp
    have hb := b₀.toNat_lt
    simp only [UInt8.toNat_div, UInt8.toNat_mod, UInt8.toNat_add, UInt8.toNat_mul,
      UInt8.reduceToNat]
    omega
  have hsecond : b₁ / 16 % 16 * 16 + b₁ % 16 = b₁ := by
    apply UInt8.toNat_inj.mp
    have hb := b₁.toNat_lt
    simp only [UInt8.toNat_div, UInt8.toNat_mod, UInt8.toNat_add, UInt8.toNat_mul,
      UInt8.reduceToNat]
    omega
  change [b₀, b₁] = [(Opcode.ofCode (b₀ / 4)).code * 4
    + (AccessMode.ofBit (b₀ / 2 % 2 == 1)).bit * 2 + (AccessMode.ofBit (b₀ % 2 == 1)).bit,
    b₁ / 16 % 16 * 16 + b₁ % 16]
  rw [Opcode.code_ofCode hop, AccessMode.bit_ofBit, AccessMode.bit_ofBit, hfirst, hsecond]

theorem encode_eq_ok_iff :
    i.encode ws = .ok bytes ↔ ws.length = i.immediateCount ∧
      ∃ header, i.header = .ok header ∧ bytes = header ++ ws.flatMap Word.bytes := by
  rw [encode]
  split
  next hcount =>
    cases i.header with
    | error e => simp [Except.map]
    | ok header => simp [Except.map, hcount, eq_comm]
  next hcount => simp [hcount]

theorem header_eq_error_iff {e : EncodeError} :
    i.header = .error e ↔ ∃ p, e = .illegalLocation (i.location p) p ∧ i.location p ∉ p.table ∧
      (p = .source → i.dst ∈ Position.destination.table) := by
  rw [header]
  split
  next h =>
    have hbad := Location.nibble?_eq_none_iff.mp h
    constructor
    · intro he
      cases he
      exact ⟨.destination, rfl, hbad, nofun⟩
    · rintro ⟨p, rfl, -, hp⟩
      cases p with
      | destination => rfl
      | source => exact absurd (hp rfl) hbad
  next n₁ h₁ h₂ =>
    have hgood := Location.mem_table_of_nibble? h₁
    constructor
    · intro he
      cases he
      exact ⟨.source, rfl, Location.nibble?_eq_none_iff.mp h₂, fun _ => hgood⟩
    · rintro ⟨p, rfl, hp, -⟩
      cases p with
      | destination => exact absurd hgood hp
      | source => rfl
  next n₁ n₂ h₁ h₂ =>
    constructor
    · intro he
      cases he
    · rintro ⟨p, -, hp, -⟩
      cases p with
      | destination => exact absurd (Location.mem_table_of_nibble? h₁) hp
      | source => exact absurd (Location.mem_table_of_nibble? h₂) hp

theorem size_of_encode (h : i.encode ws = .ok bytes) : i.size.toNat = bytes.length := by
  obtain ⟨hcount, header, hheader, rfl⟩ := encode_eq_ok_iff.mp h
  obtain ⟨n₁, n₂, -, -, rfl⟩ := header_eq_ok_iff.mp hheader
  rw [i.toNat_size, List.length_append, Word.length_flatMap_bytes, hcount]
  rfl

/-- The ways in which an instruction with some words has no encoding: it is the
number of words that is wrong, or else a location, the destination's first. -/
def Refuses (i : Instruction) (ws : List UInt16) (e : EncodeError) : Prop :=
  (ws.length ≠ i.immediateCount ∧ e = .immediateCount i.immediateCount ws.length) ∨
    (ws.length = i.immediateCount ∧ ∃ p, e = .illegalLocation (i.location p) p ∧
      i.location p ∉ p.table ∧ (p = .source → i.dst ∈ Position.destination.table))

theorem encode_eq_error_iff {e : EncodeError} : i.encode ws = .error e ↔ i.Refuses ws e := by
  rw [encode, Refuses, ← header_eq_error_iff]
  split
  next hcount =>
    cases i.header with
    | error e => simp [Except.map, hcount]
    | ok header => simp [Except.map, hcount]
  next hcount => simp [hcount, eq_comm]

end Instruction

namespace Arena

variable {m : Arena} {a : UInt16} {pid : UInt8}

/-- The bytes at an address and those after it. -/
def bytesAt (m : Arena) (a : UInt16) : Nat → List UInt8
  | 0 => []
  | n + 1 => m.byte a :: m.bytesAt (a + 1) n

/-- The words of an instruction at an address, in the order of its operands. -/
def immediates (m : Arena) (i : Instruction) (a : UInt16) : List UInt16 :=
  ([Position.destination, .source].filter fun p => (i.location p).hasImmediate).map
    fun p => m.word (immediateAddress i a p)

/-! ## Runs of bytes -/

theorem length_bytesAt (m : Arena) (a : UInt16) (n : Nat) : (m.bytesAt a n).length = n := by
  induction n generalizing a with
  | zero => rfl
  | succ n ih => rw [bytesAt, List.length_cons, ih]

theorem bytesAt_add (m : Arena) (a : UInt16) (n k : Nat) :
    m.bytesAt a (n + k) = m.bytesAt a n ++ m.bytesAt (a + UInt16.ofNat n) k := by
  induction n generalizing a with
  | zero =>
      have hstart : a + UInt16.ofNat 0 = a := UInt16.add_zero a
      rw [Nat.zero_add, bytesAt, List.nil_append, hstart]
  | succ n ih =>
      have hnext : a + 1 + UInt16.ofNat n = a + UInt16.ofNat (n + 1) := by
        rw [UInt16.ofNat_add, UInt16.add_comm (UInt16.ofNat n), ← UInt16.add_assoc]
        rfl
      rw [Nat.add_right_comm, bytesAt, ih, bytesAt, List.cons_append, hnext]

/-- A run of bytes is written where it is read. -/
theorem bytesAt_writeBytes (m : Arena) (a : UInt16) (pid : UInt8) {bs : List UInt8}
    (h : bs.length ≤ size) : (m.writeBytes a pid bs).bytesAt a bs.length = bs := by
  induction bs generalizing m a with
  | nil => rfl
  | cons b bs ih =>
      have hbyte : (m.writeBytes a pid (b :: bs)).byte a = b := by
        rw [byte, cell_writeBytes m a a pid h, toNat_sub_eq_zero_iff.mpr rfl]
        rfl
      have hrest : bs.length ≤ size := by
        rw [List.length_cons] at h
        omega
      rw [List.length_cons, bytesAt, hbyte, writeBytes, ih _ _ hrest]

/-- A part of a run of bytes is a run of bytes itself. -/
theorem bytesAt_middle {front bs back : List UInt8}
    (h : m.bytesAt a (front ++ bs ++ back).length = front ++ bs ++ back) :
    m.bytesAt (a + UInt16.ofNat front.length) bs.length = bs := by
  rw [List.length_append, bytesAt_add] at h
  obtain ⟨h, -⟩ := List.append_inj h (length_bytesAt _ _ _)
  rw [List.length_append, bytesAt_add] at h
  exact (List.append_inj h (length_bytesAt _ _ _)).2

/-! ## Words behind a header -/

theorem bytes_word (m : Arena) (a : UInt16) : Word.bytes (m.word a) = m.bytesAt a 2 := by
  rw [Word.bytes, word, Word.high_ofBytes, Word.low_ofBytes]
  rfl

theorem bytesAt_immediates (m : Arena) (i : Instruction) (a : UInt16) :
    m.bytesAt (a + 2) (2 * i.immediateCount) = (m.immediates i a).flatMap Word.bytes := by
  unfold immediates Instruction.immediateCount immediateAddress Instruction.immediateOffset
  cases hdst : i.dst.hasImmediate <;> cases hsrc : i.src.hasImmediate
  · simp [Instruction.location, hdst, hsrc, bytesAt]
  · simp [Instruction.location, hdst, hsrc, bytes_word]
  · simp [Instruction.location, hdst, hsrc, bytes_word]
  · have hfour : m.bytesAt (a + 2) (2 + 2) = m.bytesAt (a + 2) 2 ++ m.bytesAt (a + 4) 2 := by
      rw [bytesAt_add, UInt16.add_assoc]
      rfl
    simpa [Instruction.location, hdst, hsrc, bytes_word] using hfour

theorem bytesAt_size (m : Arena) (i : Instruction) (a : UInt16) :
    m.bytesAt a i.size.toNat =
      m.byte a :: m.byte (a + 1) :: (m.immediates i a).flatMap Word.bytes := by
  have htwo : a + 1 + 1 = a + 2 := UInt16.add_assoc a 1 1
  rw [i.toNat_size, Nat.add_comm, bytesAt, bytesAt, htwo, bytesAt_immediates]

/-! ## Round trips -/

/-- Where the bytes of an encoded instruction are, the instruction is. -/
theorem decode_of_encode {i : Instruction} {ws : List UInt16} {bytes : List UInt8}
    (h : i.encode ws = .ok bytes) (hm : m.bytesAt a bytes.length = bytes) :
    m.decode a = i ∧ i.size.toNat = bytes.length ∧ m.immediates i a = ws := by
  obtain ⟨hcount, header, hheader, rfl⟩ := Instruction.encode_eq_ok_iff.mp h
  obtain ⟨n₁, n₂, -, -, hbytes⟩ := Instruction.header_eq_ok_iff.mp hheader
  obtain ⟨b₀, b₁, rfl⟩ : ∃ b₀ b₁, header = [b₀, b₁] := ⟨_, _, hbytes⟩
  have hsize := Instruction.size_of_encode h
  rw [← hsize, bytesAt_size] at hm
  obtain ⟨hb₀, hrest⟩ := List.cons_eq_cons.mp hm
  obtain ⟨hb₁, hwords⟩ := List.cons_eq_cons.mp hrest
  refine ⟨?_, hsize, Word.flatMap_bytes_injective hwords⟩
  rw [decode, hb₀, hb₁]
  exact Instruction.ofHeader_of_header hheader

/-- An instruction that exists is encoded as it was found. -/
theorem encode_decode (hop : (m.byte a / 4).toNat < 32) (hdst : (m.decode a).dst ≠ .invalid)
    (hsrc : (m.decode a).src ≠ .invalid) :
    (m.decode a).encode (m.immediates (m.decode a) a) =
      .ok (m.bytesAt a (m.decode a).size.toNat) := by
  refine Instruction.encode_eq_ok_iff.mpr
    ⟨?_, _, Instruction.header_ofHeader hop hdst hsrc, bytesAt_size m _ a⟩
  have hlength := congrArg List.length (bytesAt_immediates m (m.decode a) a)
  rw [length_bytesAt, Word.length_flatMap_bytes] at hlength
  omega

/-- Encoding and decoding undo each other in the arena, wherever the instruction
starts, and an instruction is not encoded exactly if its words or its locations do
not fit. -/
theorem encoding_inverse (m : Arena) (a : UInt16) (pid : UInt8) (i : Instruction)
    (ws : List UInt16) :
    (∀ bytes, i.encode ws = .ok bytes →
      (m.writeBytes a pid bytes).decode a = i ∧ i.size.toNat = bytes.length ∧
        (m.writeBytes a pid bytes).immediates i a = ws) ∧
      ((m.byte a / 4).toNat < 32 → (m.decode a).dst ≠ .invalid → (m.decode a).src ≠ .invalid →
        (m.decode a).encode (m.immediates (m.decode a) a) =
          .ok (m.bytesAt a (m.decode a).size.toNat)) ∧
      ∀ e, i.encode ws = .error e ↔ i.Refuses ws e := by
  refine ⟨fun bytes h => ?_, encode_decode, fun e => Instruction.encode_eq_error_iff⟩
  have hlength : bytes.length ≤ size := by
    rw [← Instruction.size_of_encode h]
    exact Nat.le_of_lt i.size.toNat_lt_size
  exact decode_of_encode h (bytesAt_writeBytes m a pid hlength)

/-- An addition to memory that runs around the end of the arena. -/
theorem encoding_inverse_add :
    let i : Instruction := ⟨.add, .relative, .direct, .pimd, .imd⟩
    let m := empty.writeBytes 0xFFFE 1 [0x12, 0xCD, 0x12, 0x34, 0xAB, 0xCD]
    m.decode 0xFFFE = i ∧ m.immediates i 0xFFFE = [0x1234, 0xABCD] ∧
      i.encode (m.immediates i 0xFFFE) = .ok (m.bytesAt 0xFFFE i.size.toNat) ∧
      i.encode [0x1234] = .error (.immediateCount 2 1) := by
  intro i m
  have hencode : i.encode [0x1234, 0xABCD] = .ok [0x12, 0xCD, 0x12, 0x34, 0xAB, 0xCD] := rfl
  obtain ⟨hdecode, -, hwords⟩ :=
    (encoding_inverse empty 0xFFFE 1 i [0x1234, 0xABCD]).1 _ hencode
  have hop : (m.byte 0xFFFE / 4).toNat < 32 := by
    have hbytes : m.bytesAt 0xFFFE 6 = [0x12, 0xCD, 0x12, 0x34, 0xAB, 0xCD] :=
      bytesAt_writeBytes empty 0xFFFE 1 (by decide)
    have hfirst : m.byte 0xFFFE = 0x12 := (List.cons_eq_cons.mp hbytes).1
    rw [hfirst]
    decide
  have hdst : (m.decode 0xFFFE).dst ≠ .invalid := by
    rw [hdecode]
    decide
  have hsrc : (m.decode 0xFFFE).src ≠ .invalid := by
    rw [hdecode]
    decide
  have hback := (encoding_inverse m 0xFFFE 1 i []).2.1 hop hdst hsrc
  rw [hdecode] at hback
  exact ⟨hdecode, hwords, hback,
    ((encoding_inverse m 0xFFFE 1 i [0x1234]).2.2 _).mpr (.inl ⟨by decide, rfl⟩)⟩

end Arena
end CoreWar
