import DocQuery.Expr.Arithmetic
import DocQuery.Expr.Basic

/-!
# Evaluation on the client

An expression without free parameters can be evaluated where it is built. Members of records and maps
are read from the value; every other member, and every method and constructor, needs a handler.
-/

namespace DocQuery.Expr

def expectBool (v : Value) : Except Error Bool :=
  match v.asBool? with
  | some b => .ok b
  | none => .error (.typeMismatch "bool" v.kind)

/-- The value of a member, given the value of its target. -/
def memberValue (callee : Callee) (target : Option Value) : Except Error Value :=
  let unknown : Except Error Value :=
    .error (.compilation (.noMember callee.owner.text callee.name))
  match callee.handler, target with
  | some handler, target => handler target []
  | none, some (.record type fields) =>
    match (RecordValue.mk type fields).get? callee.name with
    | some v => .ok v
    | none => unknown
  | none, some (.map entries) =>
    match Members.get? callee.name entries with
    | some v => .ok v
    | none => .error (.evaluation (.keyNotFound callee.name))
  | none, some .null => .error (.evaluation (.memberOfNull callee.name))
  | none, _ => unknown

mutual

def evaluate : Expr → Except Error Value
  | constant value _ => .ok value
  | parameter p => .error (.variableLeak p.name)
  | binary op left right =>
    let type := (binary op left right).type
    match op with
    | .and => do
      let l ← expectBool (← evaluate left)
      if !l then return .bool false
      else return .bool (← expectBool (← evaluate right))
    | .or => do
      let l ← expectBool (← evaluate left)
      if l then return .bool true
      else return .bool (← expectBool (← evaluate right))
    | .coalesce => do
      let l ← evaluate left
      if l.isNull then evaluate right else return l
    | op => do
      let l ← evaluate left
      let r ← evaluate right
      Value.applyBinary op l r type
  | unary op operand => do
    let v ← evaluate operand
    Value.applyUnary op v
  | member target callee => do
    let target ← evaluateTarget target
    memberValue callee target
  | call target callee args =>
    match callee.handler with
    | none => .error (.compilation (.noMethod callee.owner.text callee.name))
    | some handler => do
      let target ← evaluateTarget target
      let args ← evaluateAll args
      handler target args
  | construct callee args =>
    match callee.handler with
    | none => .error (.compilation (.noConstructor callee.type.text callee.name))
    | some handler => do
      let args ← evaluateAll args
      handler none args
  | recordInit type bindings => do
    let record ← evaluateBindings (RecordValue.default type) bindings
    return record.toValue
  | array _ items => do
    let items ← evaluateAll items
    return .list items
  | conditional test ifTrue ifFalse => do
    let b ← expectBool (← evaluate test)
    if b then evaluate ifTrue else evaluate ifFalse
  | convert operand type => do
    let v ← evaluate operand
    v.cast type
  | lambda _ _ => .error (.compilation .lambdaOnClient)

def evaluateTarget : Option Expr → Except Error (Option Value)
  | none => .ok none
  | some target => do
    let v ← evaluate target
    return some v

def evaluateAll : List Expr → Except Error (List Value)
  | [] => .ok []
  | e :: rest => do
    let v ← evaluate e
    let vs ← evaluateAll rest
    return v :: vs

/-- Sets fields in the order given, each after its value is known. -/
def evaluateBindings (record : RecordValue) : List (String × Expr) → Except Error RecordValue
  | [] => .ok record
  | (name, e) :: rest => do
    let v ← evaluate e
    let record ← record.set name v
    evaluateBindings record rest

end

end DocQuery.Expr
