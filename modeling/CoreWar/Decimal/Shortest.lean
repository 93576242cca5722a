/-!
# Shortest decimals

The decimal of a double is the one with the fewest digits that reads back as the
same double, and of those the nearest to it; halfway between two, it is the
larger one.

A positive double is `m * 2 ^ q`.  The numbers that read back as it lie between
the midpoints to its neighbours; the midpoints belong to them when `m` is even.
Multiples of a power of ten are tried from the largest power down, and the two
multiples next to the double are enough for each power.
-/

namespace CoreWar
namespace Decimal

/-- The number `m * 2 ^ q`. -/
structure Binary where
  m : Nat
  q : Int
  deriving DecidableEq, Repr

/-- The least significand of a double that is not subnormal. -/
def leastSignificand : Nat := 0x10000000000000

/-- The magnitude of a finite double. -/
def Binary.ofBits (bits : UInt64) : Binary :=
  let e : Nat := bits.toNat / leastSignificand % 2048
  let f : Nat := bits.toNat % leastSignificand
  if e = 0 then ⟨f, -1074⟩ else ⟨f + leastSignificand, (e : Int) - 1075⟩

/-- The number `digits * 10 ^ exponent`. -/
structure Scaled where
  digits : Nat
  exponent : Int
  deriving DecidableEq, Repr

/-- A positive double in quarters of its last place, with the midpoints to its
neighbours and whether they belong to it. -/
structure Interval where
  low : Nat
  value : Nat
  high : Nat
  closed : Bool
  /-- The power of two that is worth one quarter. -/
  scale : Int
  deriving DecidableEq, Repr

/-- The numbers that read back as a double.  Below a power of two the doubles
lie closer together, so the lower midpoint is nearer there. -/
def Interval.of (x : Binary) : Interval :=
  { low := if x.m = leastSignificand ∧ -1074 < x.q then 4 * x.m - 1 else 4 * x.m - 2
    value := 4 * x.m
    high := 4 * x.m + 2
    closed := x.m % 2 = 0
    scale := x.q - 2 }

/-- The multiple of `10 ^ e` that stands for a double, if one reads back. -/
def Interval.at? (i : Interval) (e : Int) : Option Scaled :=
  let num := Nat.pow 2 i.scale.toNat * Nat.pow 10 (-e).toNat
  let den := Nat.pow 2 (-i.scale).toNat * Nat.pow 10 e.toNat
  let inside (d : Nat) : Bool :=
    let x := d * den
    if i.closed then
      i.low * num ≤ x && x ≤ i.high * num
    else
      i.low * num < x && x < i.high * num
  let down := i.value * num / den
  let up := down + 1
  let nearerDown := i.value * num - down * den < up * den - i.value * num
  if inside down && (nearerDown || !inside up) then
    some ⟨down, e⟩
  else if inside up then
    some ⟨up, e⟩
  else
    none

/-- The shortest decimal of a positive double.  The powers of ten from `10 ^ 309`
to `10 ^ (-344)` include one for every double. -/
def shortest (x : Binary) : Scaled :=
  let i := Interval.of x
  ((List.range 654).findSome? fun (k : Nat) => i.at? (309 - (k : Int))).getD ⟨0, 0⟩

/-- The digits of a number of the form `digits * 10 ^ exponent`, with a point
where there is a fraction and without an exponent. -/
def Scaled.text (x : Scaled) : List Char :=
  let ds := (toString x.digits).toList
  if 0 ≤ x.exponent then
    ds ++ List.replicate x.exponent.toNat '0'
  else
    let places := (-x.exponent).toNat
    let ds := List.replicate (places + 1 - ds.length) '0' ++ ds
    ds.take (ds.length - places) ++ ['.'] ++ ds.drop (ds.length - places)

/-- The shortest decimal of a double, never with an exponent. -/
def text (x : Float) : List Char :=
  if x.isNaN then
    "NaN".toList
  else
    let sign : List Char := if x.toBits >>> 63 = 1 then ['-'] else []
    let magnitude : List Char :=
      if x.isInf then
        "inf".toList
      else
        let b := Binary.ofBits x.toBits
        if b.m = 0 then ['0'] else (shortest b).text
    sign ++ magnitude

end Decimal
end CoreWar
