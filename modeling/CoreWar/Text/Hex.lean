/-!
# Hexadecimal digits

Bytes and addresses are shown in capitals, the most significant digit first.
-/

namespace CoreWar
namespace Text

/-- The digit of a number below sixteen. -/
def hexDigit (n : Nat) : Char :=
  if n < 10 then Char.ofNat ('0'.toNat + n) else Char.ofNat ('A'.toNat + n - 10)

/-- The digits of a number, at least `width` of them. -/
def hex (width n : Nat) : List Char :=
  if _h : n < 16 then
    List.replicate (width - 1) '0' ++ [hexDigit n]
  else
    hex (width - 1) (n / 16) ++ [hexDigit (n % 16)]
termination_by n
decreasing_by omega

/-- The two digits of a byte. -/
def hexByte (b : UInt8) : List Char := [hexDigit (b.toNat / 16), hexDigit (b.toNat % 16)]

/-- The digits of a row of bytes, with a space between bytes. -/
def hexBytes (bs : List UInt8) : List Char := ((bs.map hexByte).intersperse [' ']).flatten

end Text
end CoreWar
