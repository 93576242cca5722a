import CoreWar.Thread
import CoreWar.Width
import CoreWar.Word

/-!
# Arithmetic and logic

The operations on values, apart from where the values come from.  An operation
at a width takes values of that width and the flags before it, and gives the
result to be stored and the flags after it.  Products and quotients use a
double-width accumulator, so they act on the thread as a whole.
-/

namespace CoreWar
namespace Alu

/-- A result and the flags that go with it. -/
structure Result where
  value : UInt16
  flags : Flags
  deriving DecidableEq, Repr

/-- Zero and sign as a result at a width has them. -/
def zeroSign (w : Width) (r : UInt16) (f : Flags) : Flags :=
  { f with zero := r == 0, sign := w.isNegative r }

/-- The sum of `a` and an addend of the given sign: overflow means that both
have a sign that the result has not. -/
def sum (w : Width) (a b : UInt16) (bNegative : Bool) (carry : UInt16 → Bool) : Result :=
  let r := w.truncate (a + b)
  { value := r
    flags :=
      { overflow := w.isNegative a == bNegative && w.isNegative r != w.isNegative a
        sign := w.isNegative r
        zero := r == 0
        carry := carry r } }

/-- Addition. -/
def add (w : Width) (a b : UInt16) : Result :=
  sum w a b (w.isNegative b) fun r => decide (r < a) || decide (r < b)

/-- Subtraction, as the addition of the negated value, which counts as having
the opposite sign. -/
def sub (w : Width) (a b : UInt16) : Result :=
  sum w a (w.negate b) (!w.isNegative b) fun _ => decide (a < b)

/-- Increment; carry is kept. -/
def inc (w : Width) (v : UInt16) (f : Flags) : Result :=
  let r := w.truncate (v + 1)
  ⟨r, { zeroSign w r f with overflow := r == 0 || r == w.signBit }⟩

/-- Decrement; carry is kept. -/
def dec (w : Width) (v : UInt16) (f : Flags) : Result :=
  let r := w.truncate (v - 1)
  ⟨r, { zeroSign w r f with overflow := v == 0 || v == w.signBit }⟩

/-- Negation. -/
def neg (w : Width) (v : UInt16) : Result :=
  let r := w.negate v
  { value := r
    flags :=
      { overflow := v == w.signBit
        sign := w.isNegative r
        zero := v == 0
        carry := v != 0 } }

/-- A bitwise operation; overflow and carry are cleared. -/
def logic (op : UInt16 → UInt16 → UInt16) (w : Width) (a b : UInt16) : Result :=
  let r := w.truncate (op a b)
  ⟨r, zeroSign w r {}⟩

/-- A double word moved up by a number of bits. -/
def shiftLeft (v : UInt32) (n : Nat) : UInt32 :=
  if n < 32 then v <<< UInt32.ofNat n else 0

/-- A word moved down by a number of bits. -/
def shiftRight (v : UInt16) (n : Nat) : UInt16 :=
  if n < 16 then v >>> UInt16.ofNat n else 0

/-- Shift to the left.  Carry is the last bit moved out, or the top bit when
nothing is moved; overflow is set by a move of one bit only, when it changes the
sign. -/
def shl (w : Width) (v n : UInt16) (f : Flags) : Result :=
  let carry := shiftLeft v.toUInt32 (n.toNat - 1) &&& w.signBit.toUInt32 != 0
  let r := w.truncate (shiftLeft v.toUInt32 n.toNat).toUInt16
  let f := zeroSign w r f
  let overflow := if n = 1 then f.sign != carry else f.overflow
  ⟨r, { f with carry, overflow }⟩

/-- Shift to the right.  Carry is the last bit moved out, or the bottom bit when
nothing is moved; overflow is the top bit before the move. -/
def shr (w : Width) (v n : UInt16) (f : Flags) : Result :=
  let r := shiftRight v n.toNat
  ⟨r, { zeroSign w r f with
    carry := shiftRight v (n.toNat - 1) % 2 == 1
    overflow := w.isNegative v }⟩

/-- The product of two values of a width in machine integers of double width:
the values are extended without or with their sign, and the product wraps. -/
def wordProduct (s : Signedness) (w : Width) (a v : UInt16) : Int :=
  match s, w with
  | .unsigned, .byte => (a * v).toNat
  | .unsigned, .word => (a.toUInt32 * v.toUInt32).toNat
  | .signed, .byte => (a.toUInt8.toInt8.toInt16 * v.toUInt8.toInt8.toInt16).toInt
  | .signed, .word => (a.toInt16.toInt32 * v.toInt16.toInt32).toInt

/-- Multiplies the accumulator, `al` or `ax`, by a value.  The product takes the
double width, `ax` or `bx` and `ax`, only when it does not fit the single one;
overflow and carry tell. -/
def multiply (s : Signedness) (w : Width) (v : UInt16) (t : Thread) : Thread :=
  let a := match w with
    | .byte => (Word.low t.ax).toUInt16
    | .word => t.ax
  let p := wordProduct s w a v
  let wide := !s.fits w.size p
  let t := t.setOverflowCarry wide
  match w with
  | .byte =>
    if wide then
      { t with ax := UInt16.ofInt p }
    else
      { t with ax := Word.ofBytes (Word.high t.ax) (UInt8.ofInt p) }
  | .word =>
    if wide then
      { t with ax := UInt16.ofInt p, bx := UInt16.ofInt (p / 65536) }
    else
      { t with ax := UInt16.ofInt p }

/-- Quotient and remainder of the accumulator, `ax` or `bx` and `ax`, by a value,
in machine integers: without signs in those of double width, with signs in those
of twice that width.  The quotient is truncated toward zero. -/
def wordQuotient (s : Signedness) (w : Width) (v : UInt16) (t : Thread) : Int × Int :=
  match s, w with
  | .unsigned, .byte => ((t.ax / v).toNat, (t.ax % v).toNat)
  | .unsigned, .word =>
    let n := t.bx.toUInt32 <<< 16 ||| t.ax.toUInt32
    let d := v.toUInt32
    ((n / d).toNat, (n % d).toNat)
  | .signed, .byte =>
    let n := t.ax.toInt16.toInt32
    let d := v.toUInt8.toInt8.toInt32
    ((n / d).toInt, (n % d).toInt)
  | .signed, .word =>
    let n := (t.bx.toUInt32 <<< 16 ||| t.ax.toUInt32).toInt32.toInt64
    let d := v.toInt16.toInt64
    ((n / d).toInt, (n % d).toInt)

/-- Divides the accumulator, `ax` or `bx` and `ax`, by a value.  The quotient goes
to `al` or `ax`, the remainder to `ah` or `bx`; overflow tells that the quotient
does not fit.  There is no quotient by zero. -/
def divide? (s : Signedness) (w : Width) (v : UInt16) (t : Thread) : Option Thread :=
  if v = 0 then
    none
  else
    let q := (wordQuotient s w v t).1
    let r := (wordQuotient s w v t).2
    let t := { t with flags := { t.flags with overflow := !s.fits w.size q } }
    some <|
      match w with
      | .byte => { t with ax := Word.ofBytes (UInt8.ofInt r) (UInt8.ofInt q) }
      | .word => { t with ax := UInt16.ofInt q, bx := UInt16.ofInt r }

end Alu
end CoreWar
