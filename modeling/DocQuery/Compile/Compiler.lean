import DocQuery.Codec.Engine
import DocQuery.Compile.Registry
import DocQuery.Compile.Scope
import DocQuery.Expr.Evaluate
import DocQuery.Expr.Text

/-!
# Compiling expressions

An expression becomes a term node by node. A node with an override is compiled by it; members and
calls may have a template; access to a field becomes the term that reads it by its document name;
operators and control flow have terms of their own. What is left is evaluated on the client, if no
parameter is free in it, and becomes a literal.

The state of a compilation is the scope and the converters built so far. Both survive errors.
-/

namespace DocQuery

structure Compiler where
  engine : Engine
  registry : Registry

structure CompileState where
  scope : Scope
  cache : ConverterCache

/-- A step of a compilation. -/
abbrev Lowering := ExceptT Error (StateM CompileState)

namespace Lowering

def run {α : Type} (step : Lowering α) (state : CompileState) : Except Error α × CompileState :=
  StateT.run (ExceptT.run step) state

/-- A computation on the converters alone. -/
def ofSession {α : Type} (session : Session α) : Lowering α :=
  ExceptT.mk fun state =>
    let (result, cache) := session.run state.cache
    (result, { state with cache })

/-- Binds parameters and gives their slots. -/
def bind (params : List Parameter) : Lowering (List Nat) := do
  let state ← get
  let (slots, scope) ← MonadExcept.ofExcept (state.scope.bind params)
  set { state with scope }
  return slots

/-- Drops the innermost bindings. -/
def unbind (count : Nat) : Lowering Unit :=
  modify fun state => { state with scope := state.scope.unbind count }

/-- The result of a step, which does not end the run when it is an error. -/
def attempt {α : Type} (step : Lowering α) : Lowering (Except Error α) :=
  tryCatch (Except.ok <$> step) fun error => return .error error

/-- A step that compiles one operand, in the position it is given. -/
abbrev Action := Position → Lowering Term

end Lowering

namespace Compiler

open Lowering (Action)

/-- The literal of a value. -/
def literal (c : Compiler) (value : Value) (type : Ty) : Lowering Term := do
  let datum ← Lowering.ofSession (c.engine.encode type value)
  return .literal datum

/-- Evaluates on the client what has no term of its own. -/
def fold (c : Compiler) (e : Expr) : Lowering Term :=
  match e.firstParameter with
  | some p => throw (.variableLeak s!"'{p.name}' in {e.text}")
  | none =>
    if !c.engine.settings.clientEvaluation then
      throw (.compilation (.foldingDisabled e.text))
    else do
      let value ← MonadExcept.ofExcept e.evaluate
      c.literal value e.type

/-- The document name of a member of a type that has field names. -/
def wireName? (c : Compiler) (type : Ty) (name : String) : Lowering (Option String) := do
  -- A field is read through an option as it is without it.
  let type := match type with
    | .option inner => inner
    | other => other
  let converter ← Lowering.ofSession (c.engine.resolve type)
  return converter.fieldName? name

/-- Compiles the target of a node, where there is one. -/
def targetTerm (target : Option Action) : Lowering (Option Term) :=
  match target with
  | none => return none
  | some action => do
    let t ← action .operand
    return some t

/-- Compiles operands in their order. -/
def operandTerms (position : Position) (operands : List Action) : Lowering (List Term) :=
  Sequence.collect (fun action => action position) operands

/-- Runs the plan of an override. -/
def runPlan (c : Compiler) (target : Option Action) (operands : List Action) :
    Plan → Lowering Term
  | .done term => return term
  | .fail error => throw error
  | .target next => do
    let t ← targetTerm target
    runPlan c target operands (next t)
  | .operands position next => do
    let terms ← operandTerms position operands
    runPlan c target operands (next terms)
  | .literal value type next => do
    let t ← c.literal value type
    runPlan c target operands (next t)
  | .depth next => do
    let state ← get
    runPlan c target operands (next state.scope.depth)

/-- Fills in a template with the compiled target and operands. -/
def fillIn (template : Template) (target : Option Action) (operands : List Action) :
    Lowering Term := do
  let target ← targetTerm target
  let args ← operandTerms .operand operands
  MonadExcept.ofExcept (template.instantiate target args)

/-- The term of an operator. -/
def operatorKind : BinaryOp → TermKind
  | .add => .add
  | .sub => .sub
  | .mul => .mul
  | .div => .div
  | .rem => .mod
  | .eq => .eq
  | .ne => .ne
  | .lt => .lt
  | .le => .le
  | .gt => .gt
  | .ge => .ge
  | .and => .and
  | .or => .or
  | .index => .bracket
  | .coalesce => .default

def compileBinary (c : Compiler) (op : BinaryOp) (left right : Expr) (l r : Action) :
    Lowering Term :=
  match c.registry.binary? left.type.key right.type.key op with
  | some o => c.runPlan (some l) [r] (o.plan (some left) [right])
  | none => do
    let l ← l .operand
    let r ← r .operand
    return .node (operatorKind op) [l, r]

/-- The term of a unary operator on a compiled operand. -/
def unaryTerm (op : UnaryOp) (operand : Term) : Term :=
  match op with
  | .not => .node .not [operand]
  | .negate => .node .sub [.literal (.ofInt 0), operand]
  | .length => .node .count [operand]

def compileUnary (c : Compiler) (op : UnaryOp) (operand : Expr) (action : Action) :
    Lowering Term :=
  match c.registry.unary? operand.type.key op with
  | some o => c.runPlan (some action) [] (o.plan (some operand) [])
  | none => do
    let t ← action .operand
    return unaryTerm op t

/-- Reads a field of the target by its document name. A constant target is evaluated with the
member. -/
def compileField (c : Compiler) (e : Expr) (callee : Callee) (target : Option Expr)
    (action : Option Action) : Lowering Term :=
  match target, action with
  | none, _ | some (.constant _ _), _ | _, none => c.fold e
  | some target, some action => do
    match ← c.wireName? target.type callee.name with
    | some wireName => do
      let object ← action .operand
      return .getField object wireName
    | none => c.fold e

def compileMember (c : Compiler) (e : Expr) (callee : Callee) (target : Option Expr)
    (action : Option Action) : Lowering Term :=
  match c.registry.member? callee.owner.key callee.name with
  | some o => c.runPlan action [] (o.plan target [])
  | none =>
    match c.registry.template? callee.owner.key callee.name none with
    | some template => fillIn template action []
    | none => c.compileField e callee target action

def compileCall (c : Compiler) (e : Expr) (callee : Callee) (target : Option Expr)
    (args : List Expr) (action : Option Action) (actions : List Action) : Lowering Term :=
  match c.registry.method? callee.owner.key callee.name with
  | some o => c.runPlan action actions (o.plan target args)
  | none =>
    let firstKey := args.head?.map fun arg => arg.type.key
    match c.registry.template? callee.owner.key callee.name firstKey with
    | some template => do
      MonadExcept.ofExcept (template.checkArity e.text args.length)
      fillIn template action actions
    | none => c.fold e

def compileConstruct (c : Compiler) (e : Expr) (callee : Callee) (args : List Expr)
    (actions : List Action) : Lowering Term :=
  match c.registry.constructor? callee.type.key callee.name with
  | some o => c.runPlan none actions (o.plan none args)
  | none => c.fold e

/-- Compiles the fields of a record in the order given, each under its document name. -/
def compileBindings (c : Compiler) (e : Expr) (record : Ty) :
    List (String × Action) → Lowering (List (String × Term))
  | [] => return []
  | (name, action) :: rest => do
    let wireName ←
      match ← (Lowering.ofSession (c.engine.fieldName record name)).attempt with
      | .ok wireName => pure wireName
      | .error error => throw (.compilation (.fieldName e.text error.message))
    let value ← action .body
    let members ← compileBindings c e record rest
    return (wireName, value) :: members

/-- Compiles a function. The scope loses its parameters also where the body fails. -/
def compileFunction (params : List Parameter) (body : Action) : Lowering Term := do
  let slots ← Lowering.bind params
  -- The parameters leave the scope before an error goes on.
  let result ← (body .body).attempt
  Lowering.unbind params.length
  let body ← MonadExcept.ofExcept result
  return .func slots body

/-- Refuses to convert a parameter to a type that changes its document. -/
def checkConversion (operand : Expr) (type : Ty) : Except Error Unit :=
  match operand with
  | .parameter p =>
    if type.isAssignableFrom p.type then .ok ()
    else .error (.compilation (.parameterConversion p.name p.type.text type.text))
  | _ => .ok ()

mutual

/-- Compiles an expression in a position. -/
def lower (c : Compiler) : Expr → Action
  | .constant value type, _ => c.literal value type
  | .parameter p, _ => do
    let state ← get
    let slot ← MonadExcept.ofExcept (state.scope.slotOf p)
    return .var slot
  | .binary op left right, _ => c.compileBinary op left right (lower c left) (lower c right)
  | .unary op operand, _ => c.compileUnary op operand (lower c operand)
  | .member target callee, _ =>
    c.compileMember (.member target callee) callee target (lowerTarget c target)
  | .call target callee args, _ =>
    c.compileCall (.call target callee args) callee target args (lowerTarget c target)
      (lowerAll c args)
  | .construct callee args, _ =>
    c.compileConstruct (.construct callee args) callee args (lowerAll c args)
  | .recordInit type bindings, position =>
    if position = .body then do
      let members ← c.compileBindings (.recordInit type bindings) (.record type)
        (lowerBindings c bindings)
      return .makeObject members
    else c.fold (.recordInit type bindings)
  | .array _ items, _ => do
    let items ← operandTerms .operand (lowerAll c items)
    return .makeArray items
  | .conditional test ifTrue ifFalse, _ => do
    let test ← lower c test .operand
    let ifTrue ← lower c ifTrue .body
    let ifFalse ← lower c ifFalse .body
    return .branch test ifTrue ifFalse
  | .convert operand type, position => do
    MonadExcept.ofExcept (checkConversion operand type)
    lower c operand position
  | .lambda params body, _ => compileFunction params (lower c body)

def lowerTarget (c : Compiler) : Option Expr → Option Action
  | none => none
  | some target => some (lower c target)

def lowerAll (c : Compiler) : List Expr → List Action
  | [] => []
  | e :: rest => lower c e :: lowerAll c rest

def lowerBindings (c : Compiler) : List (String × Expr) → List (String × Action)
  | [] => []
  | (name, e) :: rest => (name, lower c e) :: lowerBindings c rest

end

/-- A compilation that starts with the given scope. -/
def start {α : Type} (scope : Scope) (step : Lowering α) : Session α :=
  ExceptT.mk fun cache =>
    let (result, state) := step.run ⟨scope, cache⟩
    (result, state.cache)

/-- Compiles a body whose parameters are bound in the given scope. -/
def compile (c : Compiler) (e : Expr) (scope : Scope) : Session Term :=
  start scope (c.lower e .body)

/-- Compiles a function of at most two parameters. -/
def compileLambda (c : Compiler) (params : List Parameter) (body : Expr) : Session Term :=
  if 2 < params.length then throw (.compilation (.tooManyParameters params.length))
  else start .empty (compileFunction params (c.lower body))

end Compiler

end DocQuery
