/-!
# Operand widths

Arithmetic takes place at eight or at sixteen bits.  A value at a width is a
word below the size of the width; its unsigned meaning is that number, its signed
meaning is taken in two's complement.
-/

namespace CoreWar

/-- The width of a value. -/
inductive Width where
  | byte
  | word
  deriving DecidableEq, Repr

namespace Width

/-- The number of bits. -/
def bits : Width → Nat
  | byte => 8
  | word => 16

/-- The number of values. -/
def size : Width → Nat
  | byte => 256
  | word => 65536

/-- The value whose only set bit is the top one. -/
def signBit : Width → UInt16
  | byte => 0x80
  | word => 0x8000

/-- The part of a word that the width keeps. -/
def truncate (w : Width) (v : UInt16) : UInt16 :=
  match w with
  | byte => v % 256
  | word => v

/-- Whether the top bit of a value at the width is set. -/
def isNegative (w : Width) (v : UInt16) : Bool := decide (w.signBit ≤ v)

/-- Two's-complement negation at the width. -/
def negate (w : Width) (v : UInt16) : UInt16 := w.truncate (-v)

@[simp] theorem toNat_truncate (w : Width) (v : UInt16) :
    (w.truncate v).toNat = v.toNat % w.size := by
  have := v.toNat_lt
  cases w
  · simp [truncate, size]
  · simp [truncate, size]

@[simp] theorem truncate_truncate (w : Width) (v : UInt16) :
    w.truncate (w.truncate v) = w.truncate v := by
  apply UInt16.toNat_inj.mp
  simp

end Width

/-- How the bits of a number are read. -/
inductive Signedness where
  | unsigned
  | signed
  deriving DecidableEq, Repr

namespace Signedness

/-- The integer that a number below `size` stands for. -/
def read (s : Signedness) (size n : Nat) : Int :=
  match s with
  | unsigned => n
  | signed => Int.bmod n size

/-- Whether a number below `size` stands for an integer. -/
def fits (s : Signedness) (size : Nat) (x : Int) : Bool :=
  match s with
  | unsigned => decide (0 ≤ x ∧ x < size)
  | signed => decide (-size ≤ 2 * x ∧ 2 * x < size)

end Signedness
end CoreWar
