import DocQuery.Json.Token
import DocQuery.Number.Integer
import DocQuery.Toml.Basic

/-!
# TOML words

Numbers, truth values, dates and times are words: they end before a blank, a line end or a
punctuation mark, and nothing that ends otherwise is one of them. So a word is read as a whole and
then taken for the first sort of value that it has the form of.
-/

namespace DocQuery.Toml

/-- The characters of words. -/
def isWordChar (c : Char) : Bool :=
  c.isAlphanum || c == '+' || c == '-' || c == '_' || c == '.' || c == ':'

/-- Digits without the underscores that may stand between two of them. -/
def ungroup? (isDigit : Char → Bool) : List Char → Option (List Char)
  | [] => none
  | [c] => if isDigit c then some [c] else none
  | c :: '_' :: d :: rest =>
    if isDigit c then (ungroup? isDigit (d :: rest)).map (c :: ·) else none
  | c :: d :: rest =>
    if isDigit c then (ungroup? isDigit (d :: rest)).map (c :: ·) else none

/-- A whole number without superfluous zeros in front. -/
def wholeDigits? (cs : List Char) : Option (List Char) := do
  let digits ← ungroup? Char.isDigit cs
  if digits.head? = some '0' ∧ digits.length ≠ 1 then none else some digits

/-- Whole numbers have 64 bits and a sign. -/
def word? (n : Int) : Option Toml :=
  if IntKind.i64.Holds n then some (.integer n) else none

/-- A whole number in a base of its own. -/
def based? (base : Nat) (isDigit : Char → Bool) (cs : List Char) : Option Toml := do
  let digits ← ungroup? isDigit cs
  word? (digits.foldl (fun n c => base * n + (Json.Token.hexValue? c).getD 0) 0 : Nat)

def integer? (cs : List Char) : Option Toml :=
  match cs with
  | '0' :: 'x' :: rest => based? 16 (fun c => (Json.Token.hexValue? c).isSome) rest
  | '0' :: 'o' :: rest => based? 8 (fun c => c.isDigit && c < '8') rest
  | '0' :: 'b' :: rest => based? 2 (fun c => c == '0' || c == '1') rest
  | cs => do
    let (negative, rest) := Decimal.spanSign cs
    let digits ← wholeDigits? rest
    let magnitude : Int := Decimal.digitsValue digits
    word? (if negative then -magnitude else magnitude)

/-- The exponent after its mark. -/
def exponent? (cs : List Char) : Option Int := do
  let (negative, rest) := Decimal.spanSign cs
  let digits ← ungroup? Char.isDigit rest
  let magnitude : Int := Decimal.digitsValue digits
  return if negative then -magnitude else magnitude

/-- A number with a fraction, an exponent or both. A number past the largest is refused. -/
def decimal? (negative : Bool) (cs : List Char) : Option Toml := do
  let (front, back) := cs.span fun c => c ≠ 'e' ∧ c ≠ 'E'
  let (whole, fraction) := front.span (· ≠ '.')
  if back = [] ∧ fraction = [] then none
  else do
    let whole ← wholeDigits? whole
    let fraction ← if fraction = [] then some [] else ungroup? Char.isDigit (fraction.drop 1)
    let exp ← if back = [] then some 0 else exponent? (back.drop 1)
    match ((Decimal.ofParts negative whole fraction exp).toBinary : Binary64) with
    | .infinity false => none
    | x => some (.float x)

def float? (cs : List Char) : Option Toml :=
  let (negative, rest) := Decimal.spanSign cs
  match rest with
  | ['i', 'n', 'f'] => some (.float (.infinity negative))
  | ['n', 'a', 'n'] => some (.float .nan)
  | rest => decimal? negative rest

/-! ## Dates and times -/

/-- The number of two digits. -/
def pair? (a b : Char) : Option Nat :=
  if a.isDigit ∧ b.isDigit then some (Decimal.digitsValue [a, b]) else none

def daysIn (year month : Nat) : Nat :=
  if month = 2 then
    if year % 4 = 0 ∧ (year % 100 ≠ 0 ∨ year % 400 = 0) then 29 else 28
  else if month = 4 ∨ month = 6 ∨ month = 9 ∨ month = 11 then 30
  else 31

/-- A day of the calendar, `yyyy-mm-dd`. -/
def isDate : List Char → Bool
  | [a, b, c, d, '-', e, f, '-', g, h] =>
    match pair? a b, pair? c d, pair? e f, pair? g h with
    | some high, some low, some month, some day =>
      1 ≤ month && month ≤ 12 && 1 ≤ day && day ≤ daysIn (high * 100 + low) month
    | _, _, _, _ => false
  | _ => false

/-- An offset whose hours and minutes are within the given bounds. -/
def isOffset (isWithin : Nat → Nat → Bool) : List Char → Bool
  | ['Z'] | ['z'] => true
  | sign :: a :: b :: ':' :: c :: d :: [] =>
    match pair? a b, pair? c d with
    | some hours, some minutes => (sign == '+' || sign == '-') && isWithin hours minutes
    | _, _ => false
  | _ => false

/-- A fraction of a second, if any, and then what `tail` accepts. -/
def isAfterSecond (tail : List Char → Bool) : List Char → Bool
  | '.' :: c :: rest => c.isDigit && tail (rest.dropWhile Char.isDigit)
  | rest => tail rest

/-- A time of day, `hh:mm:ss`, with hours up to the given one, and then what `tail` accepts. A
minute may end with a leap second. -/
def isTime (lastHour : Nat) (tail : List Char → Bool) : List Char → Bool
  | a :: b :: ':' :: c :: d :: ':' :: e :: f :: rest =>
    match pair? a b, pair? c d, pair? e f with
    | some hours, some minutes, some seconds =>
      hours ≤ lastHour && minutes < 60 && seconds ≤ 60 && isAfterSecond tail rest
    | _, _, _ => false
  | _ => false

/-- A time of day that follows a date, with or without an offset. -/
def isTimeOfDate (lastHour : Nat) (isWithin : Nat → Nat → Bool) : List Char → Bool :=
  isTime lastHour fun rest => rest.isEmpty || isOffset isWithin rest

/-- A time of day as documents have it. -/
def isClock : List Char → Bool :=
  isTimeOfDate 23 fun hours minutes => hours < 24 && minutes < 60

/-- A date with or without a time, or a time. -/
def time? (cs : List Char) : Option Toml :=
  let found : Option Toml := some (.time (String.ofList cs))
  match cs.drop 10 with
  | [] => if isDate cs || isTime 23 List.isEmpty cs then found else none
  | mark :: rest =>
    if isDate (cs.take 10) && (mark == 'T' || mark == 't') && isClock rest then found
    else if isTime 23 List.isEmpty cs then found
    else none

/-- The value of a word. -/
def atom? (cs : List Char) : Option Toml :=
  if cs = ['t', 'r', 'u', 'e'] then some (.boolean true)
  else if cs = ['f', 'a', 'l', 's', 'e'] then some (.boolean false)
  else ((time? cs).or (integer? cs)).or (float? cs)

/-- Reads the word in front of a text. A date takes the time of day with it that follows after one
blank. -/
def spanAtom? (cs : List Char) : Option (Toml × List Char) :=
  let (front, rest) := cs.span isWordChar
  match isDate front, rest with
  | true, ' ' :: c :: more =>
    if c.isDigit then
      let (clock, rest) := (c :: more).span isWordChar
      if isClock clock then some (.time (String.ofList (front ++ ' ' :: clock)), rest)
      else none
    else some (.time (String.ofList front), rest)
  | _, rest => (atom? front).map fun value => (value, rest)

end DocQuery.Toml
