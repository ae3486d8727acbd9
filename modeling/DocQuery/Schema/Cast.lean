import DocQuery.Number.Arithmetic
import DocQuery.Schema.Value

/-!
# Conversion of values

A value is converted to a type explicitly. Numbers go to any numeric type: into a whole number type
the fraction is dropped and the range is checked. Every other value must already have the kind of
the target.
-/

namespace DocQuery.Value

/-- The least and greatest number of 128 bits with a sign. -/
def leastWide : Int := -170141183460469231731687303715884105728
def greatestWide : Int := 170141183460469231731687303715884105727

/-- A value of the target's kind, or null where the target has it. -/
def sameKind (v : Value) (target : Ty) : Except Error Value :=
  if v.isNull && target.isNullable then .ok v
  else if v.runtimeType.key = target.key then .ok v
  else .error (.typeMismatch target.text v.runtimeType.text)

/-- The whole number of a number; a fraction is dropped. -/
def toWhole? (v : Value) : Option Int :=
  match v.asInteger? with
  | some n => some n
  | none =>
    match v.asFloat? with
    | some x => if x.isFinite then some (x.clampToInt leastWide greatestWide) else none
    | none => none

def cast (v : Value) : Ty → Except Error Value
  | .dynamic => .ok v
  | .option inner => if v.isNull then .ok .null else cast v inner
  | .int kind =>
    match v.toWhole? with
    | some n => integer (.int kind) n
    | none => .error (.typeMismatch kind.name v.kind)
  | .f32 =>
    match v.asFloat? with
    | some x => .ok (.f32 (x.convert _))
    | none => .error (.typeMismatch Ty.f32.text v.kind)
  | .f64 =>
    match v.asFloat? with
    | some x => .ok (.f64 x)
    | none => .error (.typeMismatch Ty.f64.text v.kind)
  | .zoned =>
    match v with
    | .instant t => .ok (.zoned ⟨t, .utc⟩)
    | other => sameKind other .zoned
  | target => sameKind v target

end DocQuery.Value
