import DocQuery.Number.Rounding

/-!
# Binary floating point numbers

A `Format` fixes how many bits a number keeps and how far its exponent reaches; `Binary F` holds
the numbers of that format, the two infinities and "not a number". A finite number is a sign, a
whole number `mant` and an exponent `exp`, meaning `mant · 2 ^ exp`. Its proof field makes that
writing unique, so two finite numbers of one sign are the same value exactly when they are equal.

`Binary.round` takes an exact rational number to the format: the nearest number, a half to the one
with an even `mant`, and an infinity past the largest. Arithmetic elsewhere is exact arithmetic
followed by `round`.
-/

namespace DocQuery

/-- How many bits a number keeps, and the least and greatest exponent of its last bit. -/
structure Format where
  precision : Nat
  minExp : Int
  maxExp : Int
deriving DecidableEq

namespace Format

/-- The 64 bit interchange format. -/
def double : Format := ⟨53, -1074, 971⟩

/-- The 32 bit interchange format. -/
def single : Format := ⟨24, -149, 104⟩

/-- `mant · 2 ^ exp` fits the format and is written with as many bits as the format allows. -/
def Canonical (F : Format) (mant : Nat) (exp : Int) : Prop :=
  mant < Nat.pow 2 F.precision ∧ F.minExp ≤ exp ∧ exp ≤ F.maxExp ∧
    (Nat.pow 2 (F.precision - 1) ≤ mant ∨ exp = F.minExp)

instance (F : Format) (mant : Nat) (exp : Int) : Decidable (F.Canonical mant exp) := by
  unfold Canonical
  infer_instance

end Format

/-- A number of the format `F`, an infinity, or no number. -/
inductive Binary (F : Format) where
  | nan
  | infinity (negative : Bool)
  | finite (negative : Bool) (mant : Nat) (exp : Int) (canonical : F.Canonical mant exp)
deriving DecidableEq

abbrev Binary64 := Binary Format.double
abbrev Binary32 := Binary Format.single

namespace Binary

variable {F : Format}

/-- `± mant · 2 ^ exp`, or an infinity where the format has no such number. -/
def ofParts (negative : Bool) (mant : Nat) (exp : Int) : Binary F :=
  if h : F.Canonical mant exp then .finite negative mant exp h else .infinity negative

/-- The nearest number of the format to `± magnitude`, for a magnitude that is not negative. -/
def roundMagnitude (negative : Bool) (magnitude : Rat) : Binary F :=
  let exp := if magnitude = 0 then F.minExp
    else max F.minExp (Rounding.log2 magnitude - (F.precision - 1))
  let mant := (Rounding.toEven (magnitude / 2 ^ exp)).toNat
  -- Rounding up may have led to a power of two, which needs the next exponent.
  if mant < Nat.pow 2 F.precision then ofParts negative mant exp
  else ofParts negative (Nat.pow 2 (F.precision - 1)) (exp + 1)

/-- The nearest number of the format. `negativeZero` is the sign that an exact zero gets; a number
that rounds to zero keeps its own sign. -/
def round (negativeZero : Bool) (q : Rat) : Binary F :=
  roundMagnitude (if q = 0 then negativeZero else q < 0) q.abs

def ofRat (q : Rat) : Binary F := round false q

def ofInt (n : Int) : Binary F := ofRat n

instance : OfNat (Binary F) n := ⟨ofInt n⟩

def zero (negative : Bool) : Binary F := round negative 0

instance : Inhabited (Binary F) := ⟨zero false⟩

/-- `± mant · 2 ^ exp` as an exact number. -/
def exact (negative : Bool) (mant : Nat) (exp : Int) : Rat :=
  if negative then -(mant * 2 ^ exp) else mant * 2 ^ exp

/-- The exact value of a finite number. -/
def toRat? : Binary F → Option Rat
  | finite negative mant exp _ => some (exact negative mant exp)
  | _ => none

def isFinite : Binary F → Bool
  | finite .. => true
  | _ => false

/-- A finite number without a fractional part. -/
def isIntegral (x : Binary F) : Bool :=
  match x.toRat? with
  | some q => Rounding.isIntegral q
  | none => false

/-- The order of the values: zeros of both signs are equal, and "not a number" has no place. -/
def compare? : Binary F → Binary F → Option Ordering
  | nan, _ => none
  | _, nan => none
  | infinity a, infinity b => some (Ord.compare (!a) (!b))
  | infinity a, _ => some (if a then .lt else .gt)
  | _, infinity b => some (if b then .gt else .lt)
  | finite na ma ea _, finite nb mb eb _ =>
    let a := exact na ma ea
    let b := exact nb mb eb
    some (if a < b then .lt else if b < a then .gt else .eq)

/-- Equality of values: `nan` differs from itself and `-0` equals `0`. -/
instance : BEq (Binary F) := ⟨fun a b => a.compare? b == some .eq⟩

def lt (a b : Binary F) : Bool := a.compare? b == some .lt

def le (a b : Binary F) : Bool := a.lt b || a == b

/-- The same value in another format, rounded where the other format is narrower. -/
def convert (G : Format) : Binary F → Binary G
  | nan => nan
  | infinity negative => infinity negative
  | finite negative mant exp _ => round negative (exact negative mant exp)

end Binary

end DocQuery
