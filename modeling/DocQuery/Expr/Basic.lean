import DocQuery.Schema.Record

/-!
# Expressions

An expression is a predicate or a projection over application types. Every expression has a static
type. Members, methods and constructors may carry a handler that computes them on the client.
Parameters are bound by lambdas; a parameter is the same as another when name and type are.
-/

namespace DocQuery

inductive BinaryOp where
  | add
  | sub
  | mul
  | div
  | rem
  | eq
  | ne
  | lt
  | le
  | gt
  | ge
  | and
  | or
  /-- An item of a list, a map or a record. -/
  | index
  /-- The left value, or the right one where the left is null. -/
  | coalesce
deriving DecidableEq

namespace BinaryOp

def all : List BinaryOp :=
  [add, sub, mul, div, rem, eq, ne, lt, le, gt, ge, and, or, index, coalesce]

def symbol : BinaryOp → String
  | add => "+"
  | sub => "-"
  | mul => "*"
  | div => "/"
  | rem => "%"
  | eq => "=="
  | ne => "!="
  | lt => "<"
  | le => "<="
  | gt => ">"
  | ge => ">="
  | and => "&&"
  | or => "||"
  | index => "[]"
  | coalesce => "??"

def isComparison : BinaryOp → Bool
  | eq | ne | lt | le | gt | ge => true
  | _ => false

def isLogical : BinaryOp → Bool
  | and | or => true
  | _ => false

end BinaryOp

inductive UnaryOp where
  | not
  | negate
  | length
deriving DecidableEq

namespace UnaryOp

def name : UnaryOp → String
  | not => "Not"
  | negate => "Negate"
  | length => "Length"

end UnaryOp

/-- A parameter of a lambda. -/
structure Parameter where
  name : String
  type : Ty

namespace Parameter

def same (p q : Parameter) : Bool := p.name == q.name && p.type == q.type

instance : BEq Parameter := ⟨same⟩

end Parameter

/-- What computes a member, a method or a constructor on the client, from its target and its
arguments. -/
abbrev Handler := Option Value → List Value → Except Error Value

/-- A member, a method or a constructor: the type that declares it, its name, the type of its
result, and what computes it on the client. -/
structure Callee where
  owner : Ty
  name : String
  type : Ty
  handler : Option Handler

inductive Expr where
  | constant (value : Value) (type : Ty)
  | parameter (p : Parameter)
  | binary (op : BinaryOp) (left right : Expr)
  | unary (op : UnaryOp) (operand : Expr)
  /-- A field or property; static where there is no target. -/
  | member (target : Option Expr) (callee : Callee)
  | call (target : Option Expr) (callee : Callee) (args : List Expr)
  | construct (callee : Callee) (args : List Expr)
  /-- A record made by setting fields, starting from their defaults. -/
  | recordInit (type : RecordType) (bindings : List (String × Expr))
  | array (element : Ty) (items : List Expr)
  | conditional (test ifTrue ifFalse : Expr)
  | convert (operand : Expr) (type : Ty)
  | lambda (params : List Parameter) (body : Expr)

namespace Expr

/-- The type of a sum, a difference, a product, a quotient or a remainder. -/
def arithmeticType (left right : Ty) : Ty :=
  match left, right with
  | .string, _ => .string
  | .instant, .span => .instant
  | .zoned, .span => .zoned
  | .instant, .instant => .span
  | .zoned, .zoned => .span
  | l, r =>
    -- Only operands that the narrow format keeps exactly give a number of it.
    if l.isFloat || r.isFloat then
      if l == .f32 && (r == .f32 || Ty.f32.isAssignableFrom r) then .f32
      else if r == .f32 && Ty.f32.isAssignableFrom l then .f32
      else .f64
    else if l.isInteger && r.isInteger then
      if l.isAssignableFrom r then l else if r.isAssignableFrom l then r else .int .i64
    else l

/-- The type of an item. -/
def indexType : Ty → Ty
  | .list element | .map element => element
  | _ => .dynamic

/-- The type of an option with a fallback. -/
def coalesceType (left right : Ty) : Ty :=
  match left with
  | .option inner => if right.isNullable then .option inner else inner
  | other => other

def binaryType (op : BinaryOp) (left right : Ty) : Ty :=
  if op.isComparison || op.isLogical then .bool
  else match op with
    | .index => indexType left
    | .coalesce => coalesceType left right
    | _ => arithmeticType left right

/-- The static type. -/
def type : Expr → Ty
  | constant _ type => type
  | parameter p => p.type
  | binary op left right => binaryType op left.type right.type
  | unary .not _ => .bool
  | unary .negate operand => operand.type
  | unary .length _ => .int .i64
  | member _ callee => callee.type
  | call _ callee _ => callee.type
  | construct callee _ => callee.type
  | recordInit type _ => .record type
  | array element _ => .list element
  | conditional _ ifTrue _ => ifTrue.type
  | convert _ type => type
  | lambda _ _ => .dynamic

/-- Access to a declared field of an expression whose type is a record type or an option of one. -/
def field (e : Expr) (name : String) : Except Error Expr := do
  let record ←
    match e.type with
    | .record r | .option (.record r) => pure r
    | other => throw (.argument (.noFields other.text))
  match record.field? name with
  | some field => return .member (some e) ⟨e.type, name, field.type, none⟩
  | none => throw (.argument (.noField record.name name))

mutual

/-- The first parameter that no lambda inside the expression binds, from the left. `bound` holds the
parameters of the lambdas around it. -/
def firstFree (bound : List Parameter) : Expr → Option Parameter
  | parameter p => if bound.any (· == p) then none else some p
  | constant _ _ => none
  | binary _ left right => (firstFree bound left).or (firstFree bound right)
  | unary _ operand => firstFree bound operand
  | convert operand _ => firstFree bound operand
  | member target _ => firstFreeTarget bound target
  | call target _ args => (firstFreeTarget bound target).or (firstFreeOf bound args)
  | construct _ args => firstFreeOf bound args
  | array _ items => firstFreeOf bound items
  | recordInit _ bindings => firstFreeBinding bound bindings
  | conditional test ifTrue ifFalse =>
    ((firstFree bound test).or (firstFree bound ifTrue)).or (firstFree bound ifFalse)
  | lambda params body => firstFree (bound ++ params) body

def firstFreeTarget (bound : List Parameter) : Option Expr → Option Parameter
  | none => none
  | some target => firstFree bound target

def firstFreeOf (bound : List Parameter) : List Expr → Option Parameter
  | [] => none
  | e :: rest => (firstFree bound e).or (firstFreeOf bound rest)

def firstFreeBinding (bound : List Parameter) : List (String × Expr) → Option Parameter
  | [] => none
  | (_, e) :: rest => (firstFree bound e).or (firstFreeBinding bound rest)

end

/-- The first free parameter. -/
def firstParameter (e : Expr) : Option Parameter := e.firstFree []

end Expr

end DocQuery
