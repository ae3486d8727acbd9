import DocQuery.Expr.Basic

/-!
# Scopes

A scope binds parameters to slots. Slots are numbered from 1 and are never handed out twice, so that
functions inside functions get slots of their own. A name is bound at most once at a time.
-/

namespace DocQuery

structure Scope where
  /-- Parameters with their slots, the innermost last. -/
  bindings : List (Parameter × Nat)
  /-- The slot that is handed out next. Slots are words of 64 bits: fewer than `2 ^ 64` of them are
  ever handed out, so counting them does not wrap. -/
  nextSlot : Nat

namespace Scope

def empty : Scope := ⟨[], 1⟩

instance : Inhabited Scope := ⟨empty⟩

/-- The first of the parameters whose name is among the given ones or comes up earlier among the
parameters. -/
def firstTaken (taken : List String) : List Parameter → Option Parameter
  | [] => none
  | p :: rest => if p.name ∈ taken then some p else firstTaken (p.name :: taken) rest

/-- Parameters with the slots from `slot` on. -/
def assign (slot : Nat) : List Parameter → List (Parameter × Nat)
  | [] => []
  | p :: rest => (p, slot) :: assign (slot + 1) rest

/-- Binds parameters to new slots. -/
def bind (scope : Scope) (params : List Parameter) : Except Error (List Nat × Scope) :=
  match firstTaken (scope.bindings.map fun b => b.1.name) params with
  | some p => .error (.compilation (.alreadyBound p.name))
  | none =>
    let added := assign scope.nextSlot params
    .ok (added.map Prod.snd, ⟨scope.bindings ++ added, scope.nextSlot + params.length⟩)

/-- Drops the innermost bindings. Their slots stay taken. -/
def unbind (scope : Scope) (count : Nat) : Scope :=
  { scope with bindings := scope.bindings.take (scope.bindings.length - count) }

/-- The slot of a parameter, which must be bound with the same type. -/
def slotOf (scope : Scope) (p : Parameter) : Except Error Nat :=
  match scope.bindings.reverse.find? fun b => b.1.name == p.name with
  | some (bound, slot) =>
    if bound.type == p.type then .ok slot
    else .error (.compilation (.boundOtherwise p.name bound.type.text p.type.text))
  | none => .error (.compilation (.unbound p.name))

def depth (scope : Scope) : Nat := scope.bindings.length

end Scope

end DocQuery
