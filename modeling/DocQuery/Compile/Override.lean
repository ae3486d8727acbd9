import DocQuery.Compile.Template
import DocQuery.Expr.Basic

/-!
# Overrides

An override compiles a node in its own way. It looks at the operands and gives a plan; whoever runs
the plan compiles the operands that it asks for. Member and method overrides meet the receiver as
target and the arguments as operands; an override of a binary operator meets the left operand as
target and the right one as operand, and one of a unary operator its operand as target.
-/

namespace DocQuery

/-- Where an expression is compiled. Only in a body a record may be built by the query. -/
inductive Position where
  | operand
  | body
deriving DecidableEq

inductive Plan where
  | done (term : Term)
  | fail (error : Error)
  /-- Goes on with the compiled target, where there is one. -/
  | target (next : Option Term → Plan)
  /-- Goes on with the compiled operands, in their order. -/
  | operands (position : Position) (next : List Term → Plan)
  /-- Goes on with the literal of a value. -/
  | literal (value : Value) (type : Ty) (next : Term → Plan)
  /-- Goes on with the number of parameters in scope. -/
  | depth (next : Nat → Plan)

structure Override where
  plan : Option Expr → List Expr → Plan

namespace Plan

/-- Ends with a term or an error. -/
def ofExcept : Except Error Term → Plan
  | .ok term => done term
  | .error error => fail error

end Plan

namespace Override

/-- The target by itself, or an error that names what misses it. -/
def receiver (name : String) : Override := ⟨fun target _ =>
  match target with
  | none => .fail (.compilation (.receiverMissing name))
  | some _ => .target fun t => .ofExcept (Template.target.instantiate t [])⟩

/-- A term of the target alone. -/
def accessor (kind : TermKind) : Override := ⟨fun target _ =>
  match target with
  | none => .fail (.compilation (.receiverMissing kind.name))
  | some _ => .target fun t => .ofExcept ((Template.ofTarget kind).instantiate t [])⟩

/-- A term of the target and the operands. -/
def nodeOf (kind : TermKind) : Override := ⟨fun _ _ =>
  .target fun t => .operands .operand fun args => .done (.node kind (t.toList ++ args))⟩

/-- A template filled in with the operands, whose number must be that of its places. `call` is the
text of the call in an error. -/
def ofTemplate (call : String) (template : Template) : Override := ⟨fun _ args =>
  match template.checkArity call args.length with
  | .error error => .fail error
  | .ok () => .operands .operand fun args => .ofExcept (template.instantiate none args)⟩

/-- A template filled in with the target and the operands, whatever their number. -/
def fillIn (template : Template) : Override := ⟨fun _ _ =>
  .target fun t => .operands .operand fun args => .ofExcept (template.instantiate t args)⟩

/-- A template filled in with the target and the operands, which are compiled as bodies. -/
def fillInBody (template : Template) : Override := ⟨fun _ _ =>
  .target fun t => .operands .body fun args => .ofExcept (template.instantiate t args)⟩

/-- A template filled in with the target and the number of parameters in scope. -/
def fillInDepth (template : Template) : Override := ⟨fun _ _ =>
  -- The number is a literal like any other and goes through a codec.
  .target fun t => .depth fun depth =>
    match Value.integer (.int .i64) depth with
    | .error error => .fail error
    | .ok count => .literal count (.int .i64) fun arg => .ofExcept (template.instantiate t [arg])⟩

end Override

end DocQuery
