/-!
# Base64

Three bytes are written as four characters of six bits each.  The last one or
two bytes are padded with `=` to four characters.  Reading accepts exactly what
writing produces: the padding must be there, and the bits that it leaves unused
must be zero.
-/

namespace CoreWar
namespace Base64

/-- The character of a number below sixty-four. -/
def digit (n : Nat) : Char :=
  if n < 26 then Char.ofNat ('A'.toNat + n)
  else if n < 52 then Char.ofNat ('a'.toNat + (n - 26))
  else if n < 62 then Char.ofNat ('0'.toNat + (n - 52))
  else if n = 62 then '+'
  else '/'

/-- The number of a character. -/
def value? (c : Char) : Option Nat :=
  if 'A' ≤ c ∧ c ≤ 'Z' then some (c.toNat - 'A'.toNat)
  else if 'a' ≤ c ∧ c ≤ 'z' then some (c.toNat - 'a'.toNat + 26)
  else if '0' ≤ c ∧ c ≤ '9' then some (c.toNat - '0'.toNat + 52)
  else if c = '+' then some 62
  else if c = '/' then some 63
  else none

/-- The four characters of three bytes. -/
def group (a b c : UInt8) : List Char :=
  let n := a.toNat * 65536 + b.toNat * 256 + c.toNat
  [digit (n / 262144), digit (n / 4096 % 64), digit (n / 64 % 64), digit (n % 64)]

/-- The characters of bytes after those already `written`, the last one
first. -/
def encodeFrom (written : List Char) : List UInt8 → List Char
  | a :: b :: c :: rest => encodeFrom ((group a b c).reverse ++ written) rest
  | [a, b] => written.reverse ++ (group a b 0).take 3 ++ ['=']
  | [a] => written.reverse ++ (group a 0 0).take 2 ++ ['=', '=']
  | [] => written.reverse

/-- The characters of bytes. -/
def encode (bytes : List UInt8) : List Char := encodeFrom [] bytes

/-- The three bytes of four characters. -/
def ungroup? (a b c d : Char) : Option (UInt8 × UInt8 × UInt8) := do
  let n := (← value? a) * 262144 + (← value? b) * 4096 + (← value? c) * 64 + (← value? d)
  return (UInt8.ofNat (n / 65536), UInt8.ofNat (n / 256 % 256), UInt8.ofNat (n % 256))

/-- The bytes of characters after those already `read`, the last one first. -/
def decodeFrom? (read : List UInt8) : List Char → Option (List UInt8)
  | [] => some read.reverse
  | [a, b, '=', '='] => do
    let (x, y, _) ← ungroup? a b 'A' 'A'
    if y = 0 then some (x :: read).reverse else none
  | [a, b, c, '='] => do
    let (x, y, z) ← ungroup? a b c 'A'
    if z = 0 then some (y :: x :: read).reverse else none
  | a :: b :: c :: d :: rest => do
    let (x, y, z) ← ungroup? a b c d
    decodeFrom? (z :: y :: x :: read) rest
  | _ => none

/-- The bytes of characters. -/
def decode? (text : List Char) : Option (List UInt8) := decodeFrom? [] text

end Base64
end CoreWar
