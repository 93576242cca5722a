import CoreWar.Json.Number

/-!
# Tokens of a JSON text

A text is cut into brackets, separators, the three words, numbers and strings.
Each token takes at least one character (`length_next?_lt`), so cutting ends.
-/

namespace CoreWar
namespace Json

/-- The smallest meaningful piece of a JSON text. -/
inductive Token where
  | openObject
  | closeObject
  | openArray
  | closeArray
  | comma
  | colon
  | null
  | bool (b : Bool)
  | number (n : Number)
  | string (s : String)

namespace Token

/-- The characters that may stand between tokens. -/
def isSpace (c : Char) : Bool := c == ' ' || c == '\n' || c == '\t' || c == '\r'

/-- The characters of which numerals consist. -/
def isNumeral (c : Char) : Bool :=
  c.isDigit || c == '-' || c == '+' || c == '.' || c == 'e' || c == 'E'

/-- The value of a hexadecimal digit. -/
def hexDigit? (c : Char) : Option Nat :=
  if '0' ≤ c ∧ c ≤ '9' then some (c.toNat - '0'.toNat)
  else if 'a' ≤ c ∧ c ≤ 'f' then some (c.toNat - 'a'.toNat + 10)
  else if 'A' ≤ c ∧ c ≤ 'F' then some (c.toNat - 'A'.toNat + 10)
  else none

/-- The value of four hexadecimal digits. -/
def hex4? (a b c d : Char) : Option Nat := do
  return (← hexDigit? a) * 4096 + (← hexDigit? b) * 256 + (← hexDigit? c) * 16 + (← hexDigit? d)

/-- The character for which a letter stands after a backslash. -/
def escape? : Char → Option Char
  | '"' => some '"'
  | '\\' => some '\\'
  | '/' => some '/'
  | 'b' => some '\x08'
  | 'f' => some '\x0c'
  | 'n' => some '\n'
  | 'r' => some '\r'
  | 't' => some '\t'
  | _ => none

/-- The first character of the inside of a string, and the rest.  A character
beyond sixteen bits is escaped as a pair of surrogates; a surrogate that stands
alone is refused, and so is a control character that is not escaped. -/
def character? : List Char → Option (Char × List Char)
  | '\\' :: 'u' :: a :: b :: c :: d :: rest => do
    let n ← hex4? a b c d
    if 0xD800 ≤ n ∧ n < 0xDC00 then
      match rest with
      | '\\' :: 'u' :: e :: f :: g :: h :: rest =>
        let m ← hex4? e f g h
        if 0xDC00 ≤ m ∧ m < 0xE000 then
          some (Char.ofNat (0x10000 + (n - 0xD800) * 1024 + (m - 0xDC00)), rest)
        else
          none
      | _ => none
    else if 0xDC00 ≤ n ∧ n < 0xE000 then
      none
    else
      some (Char.ofNat n, rest)
  | '\\' :: c :: rest => (escape? c).map (·, rest)
  | c :: rest => if c < ' ' ∨ c = '\\' then none else some (c, rest)
  | [] => none

theorem length_character?_lt {cs rest : List Char} {c : Char}
    (h : character? cs = some (c, rest)) : rest.length < cs.length := by
  unfold character? at h
  split at h
  · next a b c d r =>
    obtain ⟨n, -, h⟩ := Option.bind_eq_some_iff.mp h
    split at h
    · split at h
      · obtain ⟨m, -, h⟩ := Option.bind_eq_some_iff.mp h
        split at h
        · obtain ⟨-, rfl⟩ := Prod.mk.inj (Option.some.inj h)
          simp only [List.length_cons]
          omega
        · cases h
      · cases h
    · split at h
      · cases h
      · obtain ⟨-, rfl⟩ := Prod.mk.inj (Option.some.inj h)
        simp only [List.length_cons]
        omega
  · obtain ⟨c, -, h⟩ := Option.map_eq_some_iff.mp h
    cases h
    simp only [List.length_cons]
    omega
  · split at h
    · cases h
    · cases h
      simp only [List.length_cons]
      omega
  · cases h

/-- The inside of a string up to its closing quote, and the rest; `read` holds
the characters before, the last one first. -/
def stringBody? (read : List Char) (cs : List Char) : Option (List Char × List Char) :=
  match cs with
  | '"' :: rest => some (read.reverse, rest)
  | cs =>
    match _h : character? cs with
    | some (c, rest) => stringBody? (c :: read) rest
    | none => none
termination_by cs.length
decreasing_by exact length_character?_lt (by assumption)

theorem length_stringBody?_lt {read cs text rest : List Char}
    (h : stringBody? read cs = some (text, rest)) : rest.length < cs.length := by
  fun_induction stringBody? read cs with
  | case1 read rest' =>
    cases h
    simp
  | case2 read cs _ c rest' hc ih =>
    have := length_character?_lt hc
    have := ih h
    omega
  | case3 => cases h

/-- The first token of a text that starts with one, and the rest. -/
def next? : List Char → Option (Token × List Char)
  | '{' :: rest => some (openObject, rest)
  | '}' :: rest => some (closeObject, rest)
  | '[' :: rest => some (openArray, rest)
  | ']' :: rest => some (closeArray, rest)
  | ',' :: rest => some (comma, rest)
  | ':' :: rest => some (colon, rest)
  | 'n' :: 'u' :: 'l' :: 'l' :: rest => some (null, rest)
  | 't' :: 'r' :: 'u' :: 'e' :: rest => some (bool true, rest)
  | 'f' :: 'a' :: 'l' :: 's' :: 'e' :: rest => some (bool false, rest)
  | '"' :: rest => (stringBody? [] rest).map fun (text, rest) => (string (String.ofList text), rest)
  | c :: rest =>
    if isNumeral c then
      let more := rest.takeWhile isNumeral
      let rest := rest.dropWhile isNumeral
      ((Numeral.parse? (c :: more)).bind Numeral.value?).map fun n => (number n, rest)
    else
      none
  | [] => none

theorem length_next?_lt {cs rest : List Char} {t : Token} (h : next? cs = some (t, rest)) :
    rest.length < cs.length := by
  unfold next? at h
  split at h
  case h_10 =>
    obtain ⟨⟨text, r⟩, hs, h⟩ := Option.map_eq_some_iff.mp h
    cases h
    have := length_stringBody?_lt hs
    simp only [List.length_cons]
    omega
  case h_11 =>
    split at h
    · obtain ⟨n, -, h⟩ := Option.map_eq_some_iff.mp h
      cases h
      exact Nat.lt_succ_of_le (List.dropWhile_suffix _).length_le
    · cases h
  all_goals
    cases h
    try simp only [List.length_cons]
    try omega

/-- The tokens of a text after those already `read`, the last one first. -/
def readAll? (read : List Token) (cs : List Char) : Option (List Token) :=
  match cs with
  | [] => some read.reverse
  | c :: cs =>
    if isSpace c then
      readAll? read cs
    else
      match _h : next? (c :: cs) with
      | some (t, rest) => readAll? (t :: read) rest
      | none => none
termination_by cs.length
decreasing_by
  · simp
  · exact length_next?_lt (by assumption)

/-- The tokens of a text. -/
def ofText? (cs : List Char) : Option (List Token) := readAll? [] cs

end Token
end Json
end CoreWar
