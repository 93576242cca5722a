/-!
# Numbers of a JSON text

A numeral is a number as it is written.  An integer that fits sixty-four bits,
signed if it is negative and unsigned otherwise, is kept as an integer; every
other numeral becomes a double.

The double of a numeral is formed in few roundings: as many leading digits as
fit sixty-four bits make the significand, later digits only count for the power
of ten, and the significand is multiplied or divided by that power.  A result
too large for a double is refused, one too small is zero.
-/

namespace CoreWar
namespace Json

/-- The value of a numeral. -/
inductive Number where
  | integer (n : Int)
  | real (x : Float)

/-- A number as it is written. -/
structure Numeral where
  negative : Bool
  /-- The digits before the point. -/
  whole : List Nat
  /-- The digits after the point, if there is one. -/
  fraction : Option (List Nat) := none
  /-- The exponent, if there is one. -/
  exponent : Option Int := none
  deriving DecidableEq, Repr

namespace Numeral

/-- The value of a decimal digit. -/
def digit (c : Char) : Nat := c.toNat - '0'.toNat

/-- The value of a row of digits, the most significant one first. -/
def ofDigits (ds : List Nat) : Nat := ds.foldl (fun n d => n * 10 + d) 0

/-- The leading decimal digits of a text, and the rest. -/
def digits (cs : List Char) : List Nat × List Char :=
  ((cs.takeWhile Char.isDigit).map digit, cs.dropWhile Char.isDigit)

/-- The exponent that a text may start with, and the rest; a mark without
digits is refused. -/
def exponent? : List Char → Option (Option Int × List Char)
  | c :: cs =>
    if c = 'e' ∨ c = 'E' then
      let (sign, cs) : Int × List Char :=
        match cs with
        | '-' :: r => (-1, r)
        | '+' :: r => (1, r)
        | r => (1, r)
      match digits cs with
      | ([], _) => none
      | (ds, rest) => some (some (sign * ofDigits ds), rest)
    else
      some (none, c :: cs)
  | [] => some (none, [])

/-- The fraction that a text may start with, and the rest; a point without
digits is refused. -/
def fraction? : List Char → Option (Option (List Nat) × List Char)
  | '.' :: cs =>
    match digits cs with
    | ([], _) => none
    | (ds, rest) => some (some ds, rest)
  | cs => some (none, cs)

/-- The numeral that a text spells.  Zero is the only numeral whose digits before
the point start with zero. -/
def parse? (cs : List Char) : Option Numeral := do
  let (negative, cs) :=
    match cs with
    | '-' :: r => (true, r)
    | r => (false, r)
  let (whole, cs) := digits cs
  let (fraction, cs) ← fraction? cs
  let (exponent, cs) ← exponent? cs
  if whole.isEmpty || (whole.head? == some 0 && whole.length != 1) || !cs.isEmpty then
    none
  else
    some { negative, whole, fraction, exponent }

/-- Takes digits into a significand as long as it stays below `2 ^ 64`, and
gives the digits that are left. -/
def absorb (significand : Nat) : List Nat → Nat × List Nat
  | [] => (significand, [])
  | d :: ds =>
    if significand * 10 + d < UInt64.size then
      absorb (significand * 10 + d) ds
    else
      (significand, d :: ds)

/-- Multiplies a double by a power of ten, by at most `10 ^ 308` at a time; no
result if it is too large. -/
def scale? (x : Float) (e : Int) : Option Float :=
  if e.natAbs ≤ 308 then
    let p := Float.ofScientific 1 false e.natAbs
    if 0 ≤ e then
      let r := x * p
      if r.isInf then none else some r
    else
      some (x / p)
  else if x == 0 then
    some x
  else if 0 ≤ e then
    none
  else
    scale? (x / 1e308) (e + 308)
termination_by e.natAbs

/-- A double with the sign of the numeral. -/
def withSign (n : Numeral) (x : Float) : Float := if n.negative then -x else x

/-- The value of a numeral that has a fraction, an exponent or too many
digits. -/
def real? (n : Numeral) : Option Float :=
  let (significand, dropped) := absorb 0 n.whole
  let fraction := n.fraction.getD []
  let (significand, unread) := absorb significand fraction
  let e : Int := dropped.length - (fraction.length - unread.length)
  (scale? significand.toUInt64.toFloat (e + n.exponent.getD 0)).map n.withSign

/-- The value of a numeral; none if it is too large for a double. -/
def value? (n : Numeral) : Option Number :=
  let m := ofDigits n.whole
  let isInteger := n.fraction.isNone && n.exponent.isNone
  if isInteger && !n.negative && m < UInt64.size then
    some (.integer m)
  else if isInteger && n.negative && 0 < m && m ≤ 0x8000000000000000 then
    some (.integer (-m))
  else
    n.real?.map .real

end Numeral
end Json
end CoreWar
