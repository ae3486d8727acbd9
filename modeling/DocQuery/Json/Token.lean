import DocQuery.Json.Basic

/-!
# Tokens of JSON texts

A text is a sequence of tokens with blanks between them. `Token.next?` reads the token in front of
a text; what it leaves is shorter, so that reading all tokens ends. A number becomes a value here:
a word stays exact, every other number is rounded once, and one past the largest has no value.
-/

namespace DocQuery.Json

inductive Token where
  | openArray
  | closeArray
  | openObject
  | closeObject
  | comma
  | colon
  | string (value : String)
  /-- A number, `true`, `false` or `null`. -/
  | atom (value : Json)
  /-- A string with a surrogate that is not in a pair, which has no value. -/
  | brokenString
  /-- A number past the largest, which has no value. -/
  | hugeNumber

namespace Token

/-- Blanks are the space, the tab and the two line ends. -/
def isBlank (c : Char) : Bool := c == ' ' || c == '\t' || c == '\n' || c == '\r'

def hexValue? (c : Char) : Option Nat :=
  if c.isDigit then some (c.toNat - '0'.toNat)
  else if 'a' ≤ c ∧ c ≤ 'f' then some (c.toNat - 'a'.toNat + 10)
  else if 'A' ≤ c ∧ c ≤ 'F' then some (c.toNat - 'A'.toNat + 10)
  else none

/-- The value of four hexadecimal digits. -/
def unit? (a b c d : Char) : Option Nat := do
  let a ← hexValue? a
  let b ← hexValue? b
  let c ← hexValue? c
  let d ← hexValue? d
  return ((a * 16 + b) * 16 + c) * 16 + d

/-- The character of an escape with a single letter. -/
def escaped? : Char → Option Char
  | '"' => some '"'
  | '\\' => some '\\'
  | '/' => some '/'
  | 'b' => some '\x08'
  | 'f' => some '\x0c'
  | 'n' => some '\n'
  | 'r' => some '\r'
  | 't' => some '\t'
  | _ => none

/-- The character of a pair of surrogates. -/
def pairChar (high low : Nat) : Char :=
  Char.ofNat (0x10000 + (high - 0xD800) * 0x400 + (low - 0xDC00))

/-- Reads the rest of a string, up to its closing quote. A surrogate stands only in a pair, the
high one first, and a control character never stands by itself. -/
def stringBody? : List Char → Option (List Char × List Char)
  | '"' :: rest => some ([], rest)
  | '\\' :: 'u' :: a :: b :: c :: d :: '\\' :: 'u' :: e :: f :: g :: h :: rest =>
    match unit? a b c d with
    | none => none
    | some unit =>
      -- A high surrogate takes the low one behind it along.
      if 0xD800 ≤ unit ∧ unit < 0xDC00 then
        match unit? e f g h with
        | none => none
        | some low =>
          if 0xDC00 ≤ low ∧ low < 0xE000 then
            (stringBody? rest).map fun (cs, rest) => (pairChar unit low :: cs, rest)
          else none
      else if 0xDC00 ≤ unit ∧ unit < 0xE000 then none
      else (stringBody? ('\\' :: 'u' :: e :: f :: g :: h :: rest)).map fun (cs, rest) =>
        (Char.ofNat unit :: cs, rest)
  | '\\' :: 'u' :: a :: b :: c :: d :: rest =>
    match unit? a b c d with
    | none => none
    | some unit =>
      if 0xD800 ≤ unit ∧ unit < 0xE000 then none
      else (stringBody? rest).map fun (cs, rest) => (Char.ofNat unit :: cs, rest)
  | '\\' :: c :: rest =>
    match escaped? c with
    | none => none
    | some c => (stringBody? rest).map fun (cs, rest) => (c :: cs, rest)
  | c :: rest =>
    if c.toNat < 0x20 ∨ c = '\\' then none
    else (stringBody? rest).map fun (cs, rest) => (c :: cs, rest)
  | [] => none
termination_by cs => cs.length

/-- What follows a string whose escapes have the right form, after its opening quote. -/
def afterString? : List Char → Option (List Char)
  | '"' :: rest => some rest
  | '\\' :: 'u' :: a :: b :: c :: d :: rest =>
    if (unit? a b c d).isSome then afterString? rest else none
  | '\\' :: c :: rest => if (escaped? c).isSome then afterString? rest else none
  | c :: rest => if c.toNat < 0x20 ∨ c = '\\' then none else afterString? rest
  | [] => none

/-- The value of a number: its sign, its digits before and after the point, and its exponent. The
last two are absent in a whole number. -/
def number? (negative : Bool) (whole : List Char) (fraction : Option (List Char))
    (exp : Option Int) : Option Json :=
  let rounded : Option Json :=
    let x : Binary64 := (Decimal.ofParts negative whole (fraction.getD []) (exp.getD 0)).toBinary
    if x.isFinite then some (.float x) else none
  if fraction.isSome || exp.isSome then rounded
  else
    let magnitude := Decimal.digitsValue whole
    let value : Int := if negative then -magnitude else magnitude
    -- Zero with a sign is kept as the negative zero.
    if isWord value && !(negative && magnitude = 0) then some (.integer value) else rounded

/-- The whole part of a number: one zero, or digits that do not start with one. -/
def spanWhole? : List Char → Option (List Char × List Char)
  | '0' :: rest => some (['0'], rest)
  | cs =>
    match Decimal.spanDigits cs with
    | ([], _) => none
    | (digits, rest) => some (digits, rest)

/-- The part of a number after a point, which has at least one digit. -/
def spanFraction? : List Char → Option (Option (List Char) × List Char)
  | '.' :: rest =>
    match Decimal.spanDigits rest with
    | ([], _) => none
    | (digits, rest) => some (some digits, rest)
  | cs => some (none, cs)

/-- The exponent of a number, which has at least one digit. -/
def spanExponent? : List Char → Option (Option Int × List Char)
  | c :: rest =>
    if c = 'e' ∨ c = 'E' then
      let (negative, rest) := Decimal.spanSign rest
      match Decimal.spanDigits rest with
      | ([], _) => none
      | (digits, rest) =>
        let magnitude : Int := Decimal.digitsValue digits
        some (some (if negative then -magnitude else magnitude), rest)
    else some (none, c :: rest)
  | [] => some (none, [])

/-- Reads a number in front of a text, after its sign. -/
def unsigned? (negative : Bool) (cs : List Char) : Option (Token × List Char) := do
  let (whole, rest) ← spanWhole? cs
  let (fraction, rest) ← spanFraction? rest
  let (exp, rest) ← spanExponent? rest
  match number? negative whole fraction exp with
  | some value => return (.atom value, rest)
  | none => return (.hugeNumber, rest)

/-- Reads a string in front of a text, after its opening quote. -/
def quoted? (cs : List Char) : Option (Token × List Char) :=
  match stringBody? cs with
  | some (value, rest) => some (.string (String.ofList value), rest)
  | none => (afterString? cs).map fun rest => (.brokenString, rest)

/-- Reads the token in front of a text that does not start with a blank. -/
def next? : List Char → Option (Token × List Char)
  | '[' :: rest => some (.openArray, rest)
  | ']' :: rest => some (.closeArray, rest)
  | '\x7b' :: rest => some (.openObject, rest)
  | '\x7d' :: rest => some (.closeObject, rest)
  | ',' :: rest => some (.comma, rest)
  | ':' :: rest => some (.colon, rest)
  | '"' :: rest => quoted? rest
  | 'n' :: 'u' :: 'l' :: 'l' :: rest => some (.atom .null, rest)
  | 't' :: 'r' :: 'u' :: 'e' :: rest => some (.atom (.bool true), rest)
  | 'f' :: 'a' :: 'l' :: 's' :: 'e' :: rest => some (.atom (.bool false), rest)
  | '-' :: rest => unsigned? true rest
  | cs => unsigned? false cs

/-- All tokens of a text. Reading a token leaves less text, so the length of the text bounds how
often this is done. -/
def scan (budget : Nat) (cs : List Char) : Option (List Token) :=
  match budget, cs.dropWhile isBlank with
  | _, [] => some []
  | 0, _ => none
  | budget + 1, cs => do
    let (token, rest) ← next? cs
    let tokens ← scan budget rest
    return token :: tokens

/-- All tokens of a text, where it consists of tokens and blanks. -/
def ofText? (text : String) : Option (List Token) :=
  scan text.length text.toList

end Token

end DocQuery.Json
