import CoreWar.Assembly.Error
import CoreWar.Text.Blank

/-!
# Numbers in assembly text

A number is decimal or, after `0x`, hexadecimal; a minus sign may stand before
either.  The digits proper may carry one more sign of their own.  Both numbers,
that of the digits and the negated one, live in thirty-two signed bits: digits
outside that range are refused, and the one number whose negative lies outside
overflows.
-/

namespace CoreWar
namespace Assembly
namespace Numeral

/-- The value of a digit to a base of at most sixteen. -/
def digit? (base : Nat) (c : Char) : Option Nat :=
  let value? :=
    if '0' ≤ c ∧ c ≤ '9' then some (c.toNat - '0'.toNat)
    else if 'a' ≤ c ∧ c ≤ 'f' then some (c.toNat - 'a'.toNat + 10)
    else if 'A' ≤ c ∧ c ≤ 'F' then some (c.toNat - 'A'.toNat + 10)
    else none
  value?.filter (· < base)

/-- The value of one or more digits, the most significant one first. -/
def natural? (base : Nat) (cs : List Char) : Option Nat :=
  if cs.isEmpty then
    none
  else
    cs.foldlM (fun n c => (digit? base c).map (n * base + ·)) 0

/-- Whether a number fits thirty-two signed bits. -/
def fits (x : Int) : Bool := decide (-0x80000000 ≤ x ∧ x < 0x80000000)

/-- The value of digits that may have a sign. -/
def signed? (base : Nat) (cs : List Char) : Option Int :=
  let value? : Option Int :=
    match cs with
    | '-' :: ds => (natural? base ds).map fun n => -(n : Int)
    | '+' :: ds => (natural? base ds).map fun n => (n : Int)
    | ds => (natural? base ds).map fun n => (n : Int)
  value?.filter fits

/-- The value of digits after the mark of their base, if they have one. -/
def based? : List Char → Option Int
  | '0' :: 'x' :: cs => signed? 16 cs
  | '0' :: 'X' :: cs => signed? 16 cs
  | cs => signed? 10 cs

/-- The negative of a number within thirty-two signed bits. -/
def negate (x : Int) : Except (Stop Cause) Int :=
  if fits (-x) then .ok (-x) else .error .overflow

/-- What comes of a text that spells no number. -/
def invalid (text : List Char) : Except (Stop Cause) Int :=
  .error (.fault (.invalidNumber (String.ofList text)))

/-- The number that a text without blanks at its ends spells. -/
def parseTrimmed : List Char → Except (Stop Cause) Int
  | '-' :: cs => (based? cs).elim (invalid ('-' :: cs)) negate
  | cs => (based? cs).elim (invalid cs) .ok

/-- The number that a text spells. -/
def parse (text : List Char) : Except (Stop Cause) Int := parseTrimmed (Text.trim text)

/-- The byte of a number that is one, signed or unsigned. -/
def toByte (x : Int) : Except (Stop Cause) UInt8 :=
  if -128 ≤ x ∧ x ≤ 255 then .ok (UInt8.ofInt x) else .error (.fault (.valueOutOfRange x))

/-- The word of a number that is one, signed or unsigned. -/
def toWord (x : Int) : Except (Stop Cause) UInt16 :=
  if -32768 ≤ x ∧ x ≤ 65535 then .ok (UInt16.ofInt x) else .error (.fault (.valueOutOfRange x))

end Numeral
end Assembly
end CoreWar
