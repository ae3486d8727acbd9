/-!
# Rounding exact numbers

Rational numbers are rounded to integers in the two ways that the number formats ask for: a half
goes to the even neighbour, or away from zero. Both stay within half a unit of the number. The
binary and the decimal logarithm place a positive number between two neighbouring powers.
-/

namespace DocQuery

namespace Rounding

/-- The nearest integer; a half goes to the even neighbour. -/
def toEven (q : Rat) : Int :=
  let below := q.floor
  let rest := q - below
  if rest < 1 / 2 then below
  else if 1 / 2 < rest then below + 1
  else if below % 2 = 0 then below else below + 1

/-- The integer part: the fraction is dropped, so negative numbers move up. -/
def truncate (q : Rat) : Int :=
  if 0 ≤ q then q.floor else -(-q).floor

/-- The nearest integer; a half goes away from zero. -/
def halfAway (q : Rat) : Int :=
  if 0 ≤ q then (q + 1 / 2).floor else -((-q + 1 / 2).floor)

/-- A rational number without a fractional part. -/
def isIntegral (q : Rat) : Bool := q.den == 1

/-- The exponent `k` with `2 ^ k ≤ q < 2 ^ (k + 1)`, for a positive `q`. -/
def log2 (q : Rat) : Int :=
  -- The bit lengths leave two exponents to choose from.
  let guess : Int := q.num.toNat.log2 - q.den.log2
  if (2 : Rat) ^ guess ≤ q then guess else guess - 1

/-- How many decimal digits a natural number has; zero has none. -/
def digitCount (n : Nat) : Nat :=
  if h : n = 0 then 0 else digitCount (n / 10) + 1
termination_by n
decreasing_by omega

/-- The exponent `k` with `10 ^ k ≤ q < 10 ^ (k + 1)`, for a positive `q`. -/
def log10 (q : Rat) : Int :=
  -- So do the numbers of digits.
  let guess : Int := digitCount q.num.toNat - digitCount q.den
  if (10 : Rat) ^ guess ≤ q then guess else guess - 1

end Rounding

end DocQuery
