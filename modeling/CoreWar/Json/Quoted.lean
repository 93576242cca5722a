import CoreWar.Text.Hex

/-!
# Quoted text

A text is written in JSON between double quotes.  A quote, a backslash and the
control characters are escaped, with a short escape where there is one.
-/

namespace CoreWar
namespace Json

/-- How a character is written between quotes. -/
def escape (c : Char) : List Char :=
  match c with
  | '"' => ['\\', '"']
  | '\\' => ['\\', '\\']
  | '\x08' => ['\\', 'b']
  | '\x0c' => ['\\', 'f']
  | '\n' => ['\\', 'n']
  | '\r' => ['\\', 'r']
  | '\t' => ['\\', 't']
  | c =>
    if c.toNat < 0x20 then
      ['\\', 'u'] ++ (Text.hex 4 c.toNat).map Char.toLower
    else
      [c]

/-- A text between quotes. -/
def quote (s : String) : String := String.ofList (['"'] ++ s.toList.flatMap escape ++ ['"'])

end Json
end CoreWar
