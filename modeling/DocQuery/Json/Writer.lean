import DocQuery.Json.Basic

/-!
# JSON texts of values

Texts are compact: no blanks, members in their order. A string escapes the quote, the backslash and
the control characters below the blank, and nothing else. A number that is not a word is written
with its shortest digits, positionally from `1e-5` up to below `1e16` and with an exponent outside.
-/

namespace DocQuery.Json

/-- Hexadecimal digits are written in lower case. -/
def hexDigit (n : Nat) : Char := Nat.digitChar n

/-- The text of a character inside a string. -/
def escapeChar (c : Char) : List Char :=
  match c with
  | '"' => ['\\', '"']
  | '\\' => ['\\', '\\']
  | '\x08' => ['\\', 'b']
  | '\x0c' => ['\\', 'f']
  | '\n' => ['\\', 'n']
  | '\r' => ['\\', 'r']
  | '\t' => ['\\', 't']
  | c =>
    if c.toNat < 0x20 then
      ['\\', 'u', '0', '0', hexDigit (c.toNat / 16), hexDigit (c.toNat % 16)]
    else [c]

def writeString (s : String) : String :=
  String.ofList ('"' :: s.toList.flatMap escapeChar ++ ['"'])

/-- Whole numbers are marked by `.0`; of two equally near texts the one with an even last digit is
taken. -/
def floatLayout : NumberLayout := ⟨.even, fun first => -5 ≤ first && first ≤ 15, ".0"⟩

/-- Infinities and "not a number" have no JSON number; they are written as `null`. -/
def writeFloat (x : Binary64) : String :=
  if x.isFinite then x.write floatLayout else "null"

mutual

/-- The compact text of a value. -/
def write : Json → String
  | null => "null"
  | bool value => if value then "true" else "false"
  | integer value => toString value
  | float value => writeFloat value
  | string value => writeString value
  | array items => "[" ++ writeItems items ++ "]"
  | object members => "\x7b" ++ writeMembers members ++ "\x7d"

def writeItems : List Json → String
  | [] => ""
  | [item] => write item
  | item :: rest => write item ++ "," ++ writeItems rest

def writeMembers : List (String × Json) → String
  | [] => ""
  | [(key, value)] => writeString key ++ ":" ++ write value
  | (key, value) :: rest => writeString key ++ ":" ++ write value ++ "," ++ writeMembers rest

end

end DocQuery.Json
