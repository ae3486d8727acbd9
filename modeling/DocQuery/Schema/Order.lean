import DocQuery.Number.Arithmetic
import DocQuery.Schema.Value

/-!
# Equality and order of values

Expressions compare numbers by magnitude, whatever their types: two whole numbers exactly, any other
two numbers as floating point numbers. Apart from numbers only values of one type have an order, and
only some types have one.
-/

namespace DocQuery.Value

/-- Equality in expressions. -/
def equals (a b : Value) : Bool :=
  match a.asInteger?, b.asInteger? with
  | some x, some y => x == y
  | _, _ =>
    match a.asFloat?, b.asFloat? with
    | some x, some y => x == y
    | _, _ => a == b

/-- The order of two values that are not both numbers. -/
def compareOthers : Value → Value → Option Ordering
  | string x, string y => some (compareOfLessAndEq x y)
  | char x, char y => some (compareOfLessAndEq x y)
  | bool x, bool y => some (Ord.compare x y)
  | instant x, instant y => some (Ord.compare x.nanos y.nanos)
  | zoned x, zoned y => some (Ord.compare x.instant.nanos y.instant.nanos)
  | span x, span y => some (Ord.compare x.nanos y.nanos)
  | uuid x, uuid y => some (Ord.compare x.bits.toNat y.bits.toNat)
  | _, _ => none

/-- The order in expressions. -/
def compare (a b : Value) : Except Error Ordering :=
  match a.asInteger?, b.asInteger? with
  | some x, some y => .ok (Ord.compare x y)
  | _, _ =>
    match a.asFloat?, b.asFloat? with
    | some x, some y =>
      match x.compare? y with
      | some o => .ok o
      | none => .error (.evaluation (.unordered x.toText y.toText))
    | _, _ =>
      match compareOthers a b with
      | some o => .ok o
      | none => .error (.evaluation (.unordered a.kind b.kind))

end DocQuery.Value
