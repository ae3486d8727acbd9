import DocQuery.Number.Arithmetic

/-!
# Decimal numbers and their texts

A `Decimal` is a sign, a whole number of digits and a power of ten. Reading a floating point number
is reading a decimal and rounding it once. Exponents in texts are unbounded, so a decimal that is
certainly too large or too small for the format is answered without computing its power of ten.
-/

namespace DocQuery

/-- `± digits · 10 ^ exp`. -/
structure Decimal where
  negative : Bool
  digits : Nat
  exp : Int
deriving DecidableEq

namespace Decimal

def toRat (d : Decimal) : Rat :=
  let magnitude : Rat := d.digits * 10 ^ d.exp
  if d.negative then -magnitude else magnitude

/-- The nearest number of the format, an infinity for a decimal past the largest. -/
def toBinary {F : Format} (d : Decimal) : Binary F :=
  -- The magnitude is below this power of ten, and at least a tenth of it.
  let size := Rounding.digitCount d.digits + d.exp
  if d.digits = 0 ∨ size < F.minExp - 1 then .zero d.negative
  else if F.maxExp + F.precision + 1 < size then .infinity d.negative
  else .round d.negative d.toRat

/-- The value of a string of decimal digits, the most significant first. -/
def digitsValue (cs : List Char) : Nat :=
  cs.foldl (fun n c => 10 * n + (c.toNat - '0'.toNat)) 0

/-- The longest run of decimal digits in front, and what follows it. -/
def spanDigits (cs : List Char) : List Char × List Char := cs.span Char.isDigit

/-- An optional sign in front, and what follows it. -/
def spanSign : List Char → Bool × List Char
  | '-' :: cs => (true, cs)
  | '+' :: cs => (false, cs)
  | cs => (false, cs)

/-- The exponent part of a number, `e` with an optional sign and at least one digit; nothing counts
as exponent zero. -/
def exponent? : List Char → Option Int
  | [] => some 0
  | c :: cs =>
    if c = 'e' ∨ c = 'E' then
      let (negative, digits) := spanSign cs
      if digits ≠ [] ∧ digits.all Char.isDigit then
        some (if negative then -(digitsValue digits : Int) else digitsValue digits)
      else none
    else none

/-- A decimal from its parts: digits before and after the point, and an exponent. -/
def ofParts (negative : Bool) (whole fraction : List Char) (exp : Int) : Decimal :=
  ⟨negative, digitsValue (whole ++ fraction), exp - fraction.length⟩

/-- A number with digits on at least one side of an optional point. -/
def unsigned? (negative : Bool) (cs : List Char) : Option Decimal :=
  let (whole, rest) := spanDigits cs
  let (fraction, rest) := match rest with
    | '.' :: rest => spanDigits rest
    | rest => ([], rest)
  if whole ++ fraction = [] then none
  else (exponent? rest).map (ofParts negative whole fraction)

end Decimal

namespace Binary

variable {F : Format}

/-- Reads a floating point number: an optional sign, then a decimal number, `inf`, `infinity` or
`nan`, the words in any case. -/
def ofText? (text : String) : Option (Binary F) :=
  let (negative, rest) := Decimal.spanSign text.toList
  let word := String.ofList (rest.map Char.toLower)
  if word = "inf" ∨ word = "infinity" then some (.infinity negative)
  else if word = "nan" then some .nan
  else (Decimal.unsigned? negative rest).map Decimal.toBinary

end Binary

end DocQuery
