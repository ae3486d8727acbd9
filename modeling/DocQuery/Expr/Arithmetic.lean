import DocQuery.Expr.Basic
import DocQuery.Members
import DocQuery.Schema.Cast
import DocQuery.Schema.Order

/-!
# Operators on values

Sums and differences of times and spans stay within their ranges or fail. Whole numbers are computed
exactly where the static type of the expression is a whole number type, and the result must fit that
type; in every other case numbers are computed as floating point numbers.
-/

namespace DocQuery.Value

def undefinedFor {α : Type} (op : BinaryOp) (l r : Value) : Except Error α :=
  .error (.evaluation (.undefinedBinary op.symbol l.kind r.kind))

/-- The nanoseconds of a sum or a difference. -/
def addNanos? (op : BinaryOp) (a b : Int) : Option Int :=
  match op with
  | .add => some (a + b)
  | .sub => some (a - b)
  | _ => none

/-- A result that must lie within the range of times. -/
def inTimeRange (op : BinaryOp) : Option Value → Except Error Value
  | some v => .ok v
  | none => .error (.evaluation (.timeOutOfRange op.symbol))

/-- Exact arithmetic; division goes toward zero. -/
def exactArithmetic (op : BinaryOp) (l r : Value) (a b : Int) : Except Error Int :=
  let fitting (n : Int) : Except Error Int :=
    if leastWide ≤ n ∧ n ≤ greatestWide then .ok n
    else .error (.evaluation (.integerOverflow op.symbol))
  match op with
  | .add => fitting (a + b)
  | .sub => fitting (a - b)
  | .mul => fitting (a * b)
  | .div => if b = 0 then .error (.evaluation .divisionByZero) else fitting (a.tdiv b)
  | .rem => if b = 0 then .error (.evaluation .divisionByZero) else fitting (a.tmod b)
  | _ => undefinedFor op l r

/-- Floating point arithmetic. -/
def floatArithmetic (op : BinaryOp) (l r : Value) (a b : Binary64) : Except Error Binary64 :=
  match op with
  | .add => .ok (a + b)
  | .sub => .ok (a - b)
  | .mul => .ok (a * b)
  | .div => .ok (a / b)
  | .rem => .ok (a % b)
  | _ => undefinedFor op l r

/-- Arithmetic on numbers, given the static type of the expression. -/
def numericArithmetic (op : BinaryOp) (l r : Value) (type : Ty) : Except Error Value :=
  match l.asInteger?, r.asInteger?, type.isInteger with
  | some a, some b, true => do
    let n ← exactArithmetic op l r a b
    integer type n
  | _, _, _ =>
    match l.asFloat?, r.asFloat? with
    | some a, some b => do
      let x ← floatArithmetic op l r a b
      return if type == .f32 then .f32 (x.convert _) else .f64 x
    | _, _ => undefinedFor op l r

/-- Arithmetic, given the static type of the expression. -/
def arithmetic (op : BinaryOp) (l r : Value) (type : Ty) : Except Error Value :=
  match l, r with
  | .span a, .span b =>
    match addNanos? op a.nanos b.nanos with
    | some n => inTimeRange op ((Span.ofNanos? n).map .span)
    | none => undefinedFor op l r
  | .instant t, .span d =>
    match addNanos? op t.nanos d.nanos with
    | some n => inTimeRange op ((Instant.ofNanos? n).map .instant)
    | none => undefinedFor op l r
  | .zoned t, .span d =>
    match addNanos? op t.instant.nanos d.nanos with
    | some n => inTimeRange op ((Instant.ofNanos? n).map fun i => .zoned ⟨i, t.offset⟩)
    | none => undefinedFor op l r
  | .string a, .string b =>
    if op = .add then .ok (.string (a ++ b)) else numericArithmetic op l r type
  | _, _ => numericArithmetic op l r type

/-- The item of a list at a place, counted from the end where it is negative. -/
def itemAt (items : List Value) (index : Int) : Except Error Value :=
  -- A place before the first item is named in the error as it was counted.
  let place := if index < 0 then items.length + index else index
  let outside : Except Error Value := .error (.evaluation (.indexOutOfBounds place))
  if place < 0 then outside
  else match items[place.toNat]? with
    | some item => .ok item
    | none => outside

/-- An item of a list by place, of a map by key, or of a record by field name. -/
def item (target key : Value) : Except Error Value :=
  match target, key with
  | .list items, key =>
    match key.asInteger? with
    | some n => itemAt items n
    | none => .error (.typeMismatch "integer index" key.kind)
  | .map entries, .string key =>
    match Members.get? key entries with
    | some v => .ok v
    | none => .error (.evaluation (.keyNotFound key))
  | .record type fields, .string key =>
    match (RecordValue.mk type fields).get? key with
    | some v => .ok v
    | none => .error (.evaluation (.fieldNotFound key))
  | target, key => .error (.evaluation (.notIndexable target.kind key.kind))

/-- An operator that needs the values of both operands. -/
def applyBinary (op : BinaryOp) (l r : Value) (type : Ty) : Except Error Value :=
  match op with
  | .eq => .ok (.bool (l.equals r))
  | .ne => .ok (.bool (!l.equals r))
  | .lt => do return .bool ((← l.compare r) == .lt)
  | .le => do return .bool ((← l.compare r) != .gt)
  | .gt => do return .bool ((← l.compare r) == .gt)
  | .ge => do return .bool ((← l.compare r) != .lt)
  | .index => item l r
  | op => arithmetic op l r type

/-- How many characters, items or entries a value has. -/
def count (n : Nat) : Except Error Value := integer (.int .i64) n

def applyUnary (op : UnaryOp) (v : Value) : Except Error Value :=
  match op, v with
  | .not, .bool b => .ok (.bool (!b))
  | .negate, .f32 x => .ok (.f32 (-x))
  | .negate, .f64 x => .ok (.f64 (-x))
  | .negate, .span d => .ok (.span ⟨-d.nanos, by have := d.inRange; omega⟩)
  | .negate, .int kind n => integer (.int kind) (-n.val)
  | .length, .string s => count s.length
  | .length, .list items => count items.length
  | .length, .map entries => count entries.length
  | op, v => .error (.evaluation (.undefinedUnary op.name v.kind))

end DocQuery.Value
