import DocQuery.Number.Decimal

/-!
# The shortest decimal text of a floating point number

A finite number is written with the fewest digits that read back as the same number, and among
those with the digits nearest to its exact value. `Binary.shortest` searches the decimal grids from
the coarsest that can hold a digit of the number; on each grid only the two neighbours of the exact
value can be nearest. A `NumberLayout` says how the digits found become a text.
-/

namespace DocQuery

/-- Which of two equally near decimals is taken. -/
inductive Tie where
  | up
  | even
deriving DecidableEq

namespace Decimal

/-- Moves trailing zeros of the digits into the exponent. -/
def stripZeros (digits : Nat) (exp : Int) : Nat × Int :=
  if h : digits ≠ 0 ∧ digits % 10 = 0 then stripZeros (digits / 10) (exp + 1) else (digits, exp)
termination_by digits
decreasing_by omega

end Decimal

namespace Binary

variable {F : Format}

/-- The point of the grid `10 ^ grid` that is nearest to `value` among those that read back as `x`,
where there is one. Only the two neighbours of `value` have to be tried. -/
def nearestOnGrid (x : Binary F) (value : Rat) (tie : Tie) (grid : Int) : Option Nat :=
  let step : Rat := 10 ^ grid
  let below := (value / step).floor.toNat
  let readsBack (n : Nat) : Bool := decide (roundMagnitude false (n * step) = x)
  let restBelow := value - below * step
  let restAbove := (below + 1) * step - value
  match readsBack below, readsBack (below + 1) with
  | true, true =>
    if restBelow < restAbove then some below
    else if restAbove < restBelow then some (below + 1)
    else match tie with
      | .up => some (below + 1)
      | .even => some (if below % 2 = 0 then below else below + 1)
  | true, false => some below
  | false, true => some (below + 1)
  | false, false => none

/-- The fewest digits that read back as the positive number `mant · 2 ^ exp`, with their power of
ten. No number needs more digits than it has bits. -/
def shortest (tie : Tie) (mant : Nat) (exp : Int) : Nat × Int :=
  let value := exact false mant exp
  let x : Binary F := ofParts false mant exp
  -- The coarsest grid is that of the first digit; each further one adds a digit.
  let top := Rounding.log10 value
  let found := (List.range (F.precision + 2)).findSome? fun (i : Nat) =>
    (nearestOnGrid x value tie (top - i)).map fun digits => Decimal.stripZeros digits (top - i)
  found.getD (0, 0)

end Binary

/-- How digits and a power of ten are written. The exponent of a number is the power of ten of its
first digit. -/
structure NumberLayout where
  tie : Tie
  /-- The exponents written with a point in place; all others get an exponent part. -/
  positional : Int → Bool
  /-- What follows the digits of a whole number. -/
  wholeMark : String

namespace NumberLayout

def zeros (n : Nat) : String := String.ofList (List.replicate n '0')

/-- Writes `digits · 10 ^ exp`. -/
def write (layout : NumberLayout) (digits : Nat) (exp : Int) : String :=
  let ds := Nat.toDigits 10 digits
  let first := exp + ds.length - 1
  if layout.positional first then
    if 0 ≤ exp then String.ofList ds ++ zeros exp.toNat ++ layout.wholeMark
    else if 0 ≤ first then
      let whole := (first + 1).toNat
      String.ofList (ds.take whole) ++ "." ++ String.ofList (ds.drop whole)
    else "0." ++ zeros (-first - 1).toNat ++ String.ofList ds
  else
    let fraction := if ds.length = 1 then "" else "." ++ String.ofList (ds.drop 1)
    let sign := if first < 0 then "-" else "+"
    String.ofList (ds.take 1) ++ fraction ++ "e" ++ sign ++ toString first.natAbs

end NumberLayout

namespace Binary

variable {F : Format}

/-- The text of a number in a layout. -/
def write (layout : NumberLayout) : Binary F → String
  | nan => "NaN"
  | infinity negative => if negative then "-inf" else "inf"
  | finite negative mant exp _ =>
    let magnitude :=
      if mant = 0 then "0" ++ layout.wholeMark
      else
        let (digits, power) := shortest (F := F) layout.tie mant exp
        layout.write digits power
    if negative then "-" ++ magnitude else magnitude

/-- Plain texts have no exponent and no mark on whole numbers; of two equally near texts the
larger is taken. -/
def plainLayout : NumberLayout := ⟨.up, fun _ => true, ""⟩

/-- The plain text, such as `0.1`, `1000000000000000000000` or `-0`. -/
def toText (x : Binary F) : String := x.write plainLayout

end Binary

end DocQuery
