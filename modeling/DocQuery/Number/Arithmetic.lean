import DocQuery.Number.Binary

/-!
# Arithmetic on binary floating point numbers

Each operation computes the exact result of its finite operands and rounds it once. What is left to
say is the sign of a zero result and the answers for infinities.
-/

namespace DocQuery.Binary

variable {F : Format}

def neg : Binary F → Binary F
  | nan => nan
  | infinity negative => infinity (!negative)
  | finite negative mant exp h => finite (!negative) mant exp h

def abs : Binary F → Binary F
  | nan => nan
  | infinity _ => infinity false
  | finite _ mant exp h => finite false mant exp h

/-- A sum that is exactly zero is positive unless both operands are negative. -/
def add : Binary F → Binary F → Binary F
  | nan, _ => nan
  | _, nan => nan
  | infinity a, infinity b => if a = b then infinity a else nan
  | infinity a, finite .. => infinity a
  | finite .., infinity b => infinity b
  | finite na ma ea _, finite nb mb eb _ => round (na && nb) (exact na ma ea + exact nb mb eb)

def sub (x y : Binary F) : Binary F := add x (neg y)

/-- The sign of a product is negative when exactly one operand is. -/
def mul : Binary F → Binary F → Binary F
  | nan, _ => nan
  | _, nan => nan
  | infinity a, infinity b => infinity (a != b)
  | infinity a, finite nb mb _ _ => if mb = 0 then nan else infinity (a != nb)
  | finite na ma _ _, infinity b => if ma = 0 then nan else infinity (na != b)
  | finite na ma ea _, finite nb mb eb _ => round (na != nb) (exact na ma ea * exact nb mb eb)

/-- A quotient by zero is an infinity, unless the dividend is zero too. -/
def div : Binary F → Binary F → Binary F
  | nan, _ => nan
  | _, nan => nan
  | infinity _, infinity _ => nan
  | infinity a, finite nb _ _ _ => infinity (a != nb)
  | finite na _ _ _, infinity b => zero (na != b)
  | finite na ma ea _, finite nb mb eb _ =>
    if mb = 0 then if ma = 0 then nan else infinity (na != nb)
    else round (na != nb) (exact na ma ea / exact nb mb eb)

/-- What is left of `x` after taking away `y` a whole number of times, as often as possible without
passing zero; it has the sign of `x`. -/
def rem : Binary F → Binary F → Binary F
  | nan, _ => nan
  | _, nan => nan
  | infinity _, _ => nan
  | x@(finite ..), infinity _ => x
  | finite na ma ea _, finite nb mb eb _ =>
    if mb = 0 then nan
    else
      let x := exact na ma ea
      let y := exact nb mb eb
      round na (x - y * Rounding.truncate (x / y))

/-- Applies a rounding to an integer, keeping the sign of a zero result. -/
def mapToInt (f : Rat → Int) : Binary F → Binary F
  | finite negative mant exp _ => round negative (f (exact negative mant exp))
  | x => x

def floor : Binary F → Binary F := mapToInt Rat.floor

/-- The nearest whole number; a half goes away from zero. -/
def roundHalfAway : Binary F → Binary F := mapToInt Rounding.halfAway

/-- Drops the fraction and takes the nearest end of the range where the number lies outside it;
"not a number" gives zero. -/
def clampToInt (least greatest : Int) : Binary F → Int
  | nan => 0
  | infinity negative => if negative then least else greatest
  | finite negative mant exp _ =>
    max least (min greatest (Rounding.truncate (exact negative mant exp)))

instance : Neg (Binary F) := ⟨neg⟩
instance : Add (Binary F) := ⟨add⟩
instance : Sub (Binary F) := ⟨sub⟩
instance : Mul (Binary F) := ⟨mul⟩
instance : Div (Binary F) := ⟨div⟩
instance : Mod (Binary F) := ⟨rem⟩

end DocQuery.Binary
