import DocQuery.Proofs.Expr.Evaluate

/-!
# Free parameters

An occurrence of a parameter is free where no lambda around it binds a parameter of the same name
and type. The search for a free parameter finds the first one from the left. Evaluation reads
parameters too, but it never enters a lambda, so that it only comes across free ones.

## Key results

- `Expr.firstFree_eq_find?`: the search finds the first free parameter that is not bound around
- `Expr.leaksOnly_evaluate`: evaluation fails with the error of a free parameter only where there is
  one
- `Expr.firstParameter_exact`: the first free parameter, and what follows where there is none
-/

namespace DocQuery

/-- A parameter of the same name and type is among `params`. -/
def Parameter.boundBy (params : List Parameter) (p : Parameter) : Bool :=
  params.any fun q => q.name == p.name && q.type == p.type

/-- A parameter is `boundBy` two lists together where it is so by either. -/
theorem Parameter.boundBy_append (params more : List Parameter) (p : Parameter) :
    p.boundBy (params ++ more) = (p.boundBy params || p.boundBy more) :=
  List.any_append

namespace Expr

/-- The occurrences of free parameters, from the left: of parameters that no `lambda` around them
    binds. -/
def freeParameters : Expr → List Parameter
  | parameter p => [p]
  | lambda params body => (freeParameters body).filter fun p => !p.boundBy params
  | e => e.parts.attach.flatMap fun part => freeParameters part.1
termination_by e => sizeOf e
decreasing_by
  · simp
  · exact sizeOf_lt_of_mem_parts _ _ part.2

variable {e : Expr}

/-- All parts count, from the left, and nothing else, except in a `parameter` and a `lambda`. -/
theorem freeParameters_eq_flatMap (hparameter : ∀ p, e ≠ parameter p)
    (hlambda : ∀ params body, e ≠ lambda params body) :
    e.freeParameters = e.parts.flatMap freeParameters := by
  -- The attached membership only serves the termination, so it can be dropped here.
  rw [freeParameters, List.flatMap_subtype fun _ _ => rfl, List.unattach_attach]
  · exact hparameter
  · exact hlambda

/-- What is free in a part is free in the expression, unless this is a `lambda`. -/
theorem freeParameters_subset {part : Expr} (hlambda : ∀ params body, e ≠ lambda params body)
    (hpart : part ∈ e.parts) : part.freeParameters ⊆ e.freeParameters := by
  have hparameter : ∀ p, e ≠ parameter p := by
    rintro p rfl
    cases hpart
  rw [freeParameters_eq_flatMap hparameter hlambda]
  exact fun p hp => List.mem_flatMap.mpr ⟨part, hpart, hp⟩

theorem firstFreeTarget_eq_findSome? (bound : List Parameter) (target : Option Expr) :
    firstFreeTarget bound target = target.toList.findSome? (firstFree bound) := by
  cases target with
  | none => rw [firstFreeTarget]; rfl
  | some target => rw [firstFreeTarget, Option.toList_some, List.findSome?_singleton]

/-- `findSome?` takes the first answer. -/
private theorem findSome?_cons_eq_or {α β : Type} (f : α → Option β) (a : α) (as : List α) :
    (a :: as).findSome? f = (f a).or (as.findSome? f) := by
  rw [List.findSome?_cons]
  cases f a <;> rfl

/-- The search in a list of expressions goes from the left. -/
theorem firstFreeOf_eq_findSome? (bound : List Parameter) (es : List Expr) :
    firstFreeOf bound es = es.findSome? (firstFree bound) := by
  induction es with
  | nil => rw [firstFreeOf]; rfl
  | cons e rest ih => rw [firstFreeOf, ih, findSome?_cons_eq_or]

theorem firstFreeBinding_eq_findSome? (bound : List Parameter) (bindings : List (String × Expr)) :
    firstFreeBinding bound bindings = (bindings.map Prod.snd).findSome? (firstFree bound) := by
  induction bindings with
  | nil => rw [firstFreeBinding]; rfl
  | cons binding rest ih => rw [firstFreeBinding, ih, List.map_cons, findSome?_cons_eq_or]

/-- The search goes through all `parts`, from the left. -/
theorem firstFree_eq_findSome? (hparameter : ∀ p, e ≠ parameter p)
    (hlambda : ∀ params body, e ≠ lambda params body) (bound : List Parameter) :
    firstFree bound e = e.parts.findSome? (firstFree bound) := by
  cases e with
  | parameter p => exact absurd rfl (hparameter p)
  | lambda params body => exact absurd rfl (hlambda params body)
  | constant => rw [firstFree]; rfl
  -- The search goes through the target, the arguments and so on in the order of `parts`.
  | member target callee => rw [firstFree, firstFreeTarget_eq_findSome?, parts]
  | call target callee args =>
    rw [firstFree, firstFreeTarget_eq_findSome?, firstFreeOf_eq_findSome?, parts,
      List.findSome?_append]
  | construct callee args => rw [firstFree, firstFreeOf_eq_findSome?, parts]
  | array element items => rw [firstFree, firstFreeOf_eq_findSome?, parts]
  | recordInit type bindings => rw [firstFree, firstFreeBinding_eq_findSome?, parts]
  -- The parts of the other expressions are listed one by one.
  | _ =>
    rw [firstFree, parts]
    simp only [findSome?_cons_eq_or, List.findSome?_nil, Option.or_none, Option.or_assoc]

/-- The search in an expression finds the first of its `freeParameters` that is not bound around the
    expression. -/
theorem firstFree_eq_find? (bound : List Parameter) (e : Expr) :
    firstFree bound e = e.freeParameters.find? fun p => !p.boundBy bound := by
  -- The induction is on the expression; nothing is asked of its values.
  induction e.evaluates_true generalizing bound with
  | @intro e _ _ ih =>
    cases e with
    | parameter p =>
      have hbound : bound.any (· == p) = p.boundBy bound := rfl
      rw [firstFree, freeParameters, hbound, List.find?_singleton]
      cases p.boundBy bound <;> rfl
    | lambda params body =>
      -- What the lambda binds joins what is bound around it, so both conditions are asked in one
      -- go.
      rw [firstFree, ih body (.head _), freeParameters, List.find?_filter]
      simp only [Parameter.boundBy_append, Bool.not_or, Bool.decide_and, Bool.decide_eq_true,
        Bool.and_comm]
    | _ =>
      rw [firstFree_eq_findSome? (by simp) (by simp), freeParameters_eq_flatMap (by simp) (by simp),
        -- The first answer of a part is the first free parameter in all parts, one after the other.
        List.find?_flatMap, ← List.head?_filterMap, ← List.head?_filterMap]
      exact congrArg List.head? (List.filterMap_congr fun part hpart => ih part hpart bound)

end Expr

/-! ## Errors of free parameters -/

variable {α β : Type} {params more : List Parameter}

/-- The result is not the error of a free parameter, or it is that of one of `params`. -/
def LeaksOnly (params : List Parameter) (result : Except Error α) : Prop :=
  ∀ reference, result = .error (.variableLeak reference) → ∃ p ∈ params, p.name = reference

namespace LeaksOnly

@[simp] theorem ok (a : α) : LeaksOnly params (.ok a) := fun _ h => by cases h

/-- An error leaks what it says if it is a `variableLeak`. -/
@[simp] theorem error_iff {e : Error} : LeaksOnly params (.error e : Except Error α) ↔
    ∀ reference, e = .variableLeak reference → ∃ p ∈ params, p.name = reference := by
  simp only [LeaksOnly, Except.error.injEq]

theorem bind {x : Except Error α} {f : α → Except Error β} (h : LeaksOnly params x)
    (hf : ∀ a, LeaksOnly params (f a)) : LeaksOnly params (x >>= f) := by
  cases x with
  | error e => exact error_iff.mpr (error_iff.mp h)
  | ok a => exact hf a

theorem mono {result : Except Error α} (h : LeaksOnly params result) (hsub : params ⊆ more) :
    LeaksOnly more result := by
  intro reference hresult
  obtain ⟨p, hp, hname⟩ := h reference hresult
  exact ⟨p, hsub hp, hname⟩

end LeaksOnly

namespace Value

variable {l r v : Value} {type : Ty} {op : BinaryOp}

/-- The error of an operator that is not defined is no leak. -/
@[simp] theorem leaksOnly_undefinedFor :
    LeaksOnly params (undefinedFor op l r : Except Error α) := by
  simp [undefinedFor]

@[simp] theorem leaksOnly_integer {n : Int} : LeaksOnly params (integer type n) := by
  unfold integer
  repeat' split
  all_goals simp

/-- Comparison of values leaks nothing. -/
theorem leaksOnly_compare : LeaksOnly params (l.compare r) := by
  unfold Value.compare
  repeat' split
  all_goals simp

theorem leaksOnly_exactArithmetic {a b : Int} : LeaksOnly params (exactArithmetic op l r a b) := by
  unfold exactArithmetic
  dsimp only
  repeat' split
  all_goals simp

theorem leaksOnly_floatArithmetic {a b : Binary64} :
    LeaksOnly params (floatArithmetic op l r a b) := by
  cases op <;> simp [floatArithmetic]

/-- Arithmetic on numbers leaks nothing, whether it is exact or not. -/
@[simp] theorem leaksOnly_numericArithmetic :
    LeaksOnly params (numericArithmetic op l r type) := by
  unfold numericArithmetic
  split
  · exact .bind leaksOnly_exactArithmetic fun n => leaksOnly_integer
  · split
    · exact .bind leaksOnly_floatArithmetic fun x => .ok _
    · simp

@[simp] theorem leaksOnly_inTimeRange {result : Option Value} :
    LeaksOnly params (inTimeRange op result) := by
  cases result <;> simp [inTimeRange]

/-- Arithmetic leaks nothing. -/
theorem leaksOnly_arithmetic : LeaksOnly params (arithmetic op l r type) := by
  unfold arithmetic
  repeat' split
  all_goals simp

@[simp] theorem leaksOnly_itemAt {items : List Value} {index : Int} :
    LeaksOnly params (itemAt items index) := by
  simp only [itemAt]
  repeat' split
  all_goals simp

theorem leaksOnly_item : LeaksOnly params (item l r) := by
  unfold item
  repeat' split
  all_goals simp

/-- Operators on values, as `applyBinary` has them, do not read parameters. -/
theorem leaksOnly_applyBinary : LeaksOnly params (applyBinary op l r type) := by
  -- Order and equality compare, an index looks one item up, and all the rest is arithmetic.
  cases op with
  | eq | ne => exact .ok _
  | lt | le | gt | ge => exact .bind leaksOnly_compare fun _ => .ok _
  | index => exact leaksOnly_item
  | _ =>
    unfold applyBinary
    exact leaksOnly_arithmetic

theorem leaksOnly_applyUnary {op : UnaryOp} : LeaksOnly params (applyUnary op v) := by
  unfold applyUnary count
  split
  all_goals simp

/-- The check of kinds that comes last in a conversion leaks nothing. -/
theorem leaksOnly_sameKind : LeaksOnly params (sameKind v type) := by
  unfold sameKind
  repeat' split
  all_goals simp

/-- Conversions of values do not read parameters. -/
theorem leaksOnly_cast : LeaksOnly params (v.cast type) := by
  fun_induction Value.cast v type with
  -- An option is converted to its inner type first; the other cases are leaves.
  | case3 _ _ ih => exact ih
  | case4 => exact leaksOnly_integer
  | case11 | case12 => exact leaksOnly_sameKind
  | _ => simp

end Value

/-! ## Evaluation -/

namespace Expr

variable {e : Expr}

/-- A value that should be a truth value and is none gives an error that is no leak. -/
theorem leaksOnly_expectBool {v : Value} : LeaksOnly params (expectBool v) := by
  unfold expectBool
  split
  all_goals simp

/-- The handler of the node, if it has one, does not fail with the error of a free parameter.
    Handlers are not written down in the expression, so this has to be asked of them. -/
def DiscreetNode : Expr → Prop
  | member _ callee | call _ callee _ | construct callee _ =>
    ∀ handler, callee.handler = some handler →
      ∀ target args reference, handler target args ≠ .error (.variableLeak reference)
  | _ => True

/-- No handler in the expression fails with the error of a free parameter: `DiscreetNode` at every
    depth. -/
abbrev Discreet : Expr → Prop := Everywhere parts DiscreetNode

/-- The value of a member leaks nothing, if its handler does not. -/
theorem leaksOnly_memberValue {callee : Callee} {target : Option Value}
    (hcallee : DiscreetNode (.member none callee)) :
    LeaksOnly params (memberValue callee target) := by
  unfold memberValue
  dsimp only
  split
  · rename_i handler hhandler
    -- This is where the condition on handlers is used.
    exact fun reference h => absurd h (hcallee handler hhandler _ _ reference)
  · split
    all_goals simp
  · split
    all_goals simp
  all_goals simp

/-- Setting a field leaks nothing, also where there is no field of the name. -/
theorem leaksOnly_set {record : RecordValue} {name : String} {v : Value} :
    LeaksOnly params (record.set name v) := by
  refine .bind ?_ fun _ => .ok _
  unfold RecordValue.indexOf
  split
  all_goals simp

/-- Evaluating a target leaks what the expression in it leaks. -/
theorem leaksOnly_evaluateTarget {target : Option Expr}
    (h : ∀ e ∈ target.toList, LeaksOnly params e.evaluate) :
    LeaksOnly params (evaluateTarget target) := by
  cases target with
  | none =>
    rw [evaluateTarget]
    exact .ok _
  | some e =>
    rw [evaluateTarget]
    exact .bind (h e (.head _)) fun _ => .ok _

/-- Evaluating expressions in a row leaks what they leak. -/
theorem leaksOnly_evaluateAll {es : List Expr} (h : ∀ e ∈ es, LeaksOnly params e.evaluate) :
    LeaksOnly params (evaluateAll es) := by
  induction es with
  | nil =>
    rw [evaluateAll]
    exact .ok _
  | cons e rest ih =>
    rw [evaluateAll]
    rw [List.forall_mem_cons] at h
    exact .bind h.1 fun _ => .bind (ih h.2) fun _ => .ok _

/-- Evaluating bindings leaks what their expressions leak. -/
theorem leaksOnly_evaluateBindings {bindings : List (String × Expr)} {record : RecordValue}
    (h : ∀ e ∈ bindings.map Prod.snd, LeaksOnly params e.evaluate) :
    LeaksOnly params (evaluateBindings record bindings) := by
  induction bindings generalizing record with
  | nil =>
    rw [evaluateBindings]
    exact .ok _
  | cons binding rest ih =>
    rw [evaluateBindings]
    rw [List.map_cons, List.forall_mem_cons] at h
    exact .bind h.1 fun _ => .bind leaksOnly_set fun _ => ih h.2

/-- An expression that is no `parameter` leaks only what its parts leak. -/
theorem leaksOnly_of_parts (hnode : e.DiscreetNode) (hparameter : ∀ p, e ≠ parameter p)
    (h : ∀ part ∈ e.parts, LeaksOnly params part.evaluate) : LeaksOnly params e.evaluate := by
  cases e with
  -- A parameter leaks by itself, and is left out here.
  | parameter p => exact absurd rfl (hparameter p)
  | constant value type =>
    rw [evaluate]
    exact .ok _
  | binary op left right =>
    have hleft := h left (.head _)
    have hright := h right (.tail _ (.head _))
    unfold evaluate
    dsimp only
    split
    -- The right operand of a logical operator may not be looked at.
    iterate 2
      · refine .bind hleft fun _ => .bind leaksOnly_expectBool fun l => ?_
        split
        · exact .ok _
        · exact .bind hright fun _ => .bind leaksOnly_expectBool fun _ => .ok _
    · -- The fallback of a null may be evaluated or not.
      refine .bind hleft fun l => ?_
      split
      · exact hright
      · exact .ok _
    · exact .bind hleft fun _ => .bind hright fun _ => Value.leaksOnly_applyBinary
  | unary op operand =>
    rw [evaluate]
    exact .bind (h operand (.head _)) fun _ => Value.leaksOnly_applyUnary
  -- What a handler makes of the values does not leak, by `hnode`.
  | member target callee =>
    rw [evaluate]
    exact .bind (leaksOnly_evaluateTarget h) fun _ => leaksOnly_memberValue hnode
  | call target callee args =>
    rw [evaluate]
    split
    · simp
    · rename_i handler hhandler
      refine .bind (leaksOnly_evaluateTarget ?_) fun _ =>
        .bind (leaksOnly_evaluateAll ?_) fun _ => ?_
      · exact fun e he => h e (List.mem_append_left _ he)
      · exact fun e he => h e (List.mem_append_right _ he)
      · exact fun reference hleak => absurd hleak (hnode handler hhandler _ _ reference)
  | construct callee args =>
    rw [evaluate]
    split
    · simp
    · rename_i handler hhandler
      refine .bind (leaksOnly_evaluateAll h) fun _ => ?_
      exact fun reference hleak => absurd hleak (hnode handler hhandler _ _ reference)
  | recordInit type bindings =>
    rw [evaluate]
    exact .bind (leaksOnly_evaluateBindings h) fun _ => .ok _
  | array element items =>
    rw [evaluate]
    exact .bind (leaksOnly_evaluateAll h) fun _ => .ok _
  | conditional test ifTrue ifFalse =>
    rw [evaluate]
    refine .bind (h test (.head _)) fun _ => .bind leaksOnly_expectBool fun b => ?_
    split
    · exact h ifTrue (.tail _ (.head _))
    · exact h ifFalse (.tail _ (.tail _ (.head _)))
  | convert operand type =>
    rw [evaluate]
    exact .bind (h operand (.head _)) fun _ => Value.leaksOnly_cast
  -- A function is refused for another reason than a leak.
  | lambda params body =>
    rw [evaluate]
    simp

/-- Evaluation fails with the error of a free parameter only where there is one among
    `freeParameters`. -/
theorem leaksOnly_evaluate (he : e.Discreet) : LeaksOnly e.freeParameters e.evaluate := by
  induction he with
  | @intro e top _ ih =>
    cases e with
    | parameter p =>
      rw [evaluate, freeParameters]
      simp
    | lambda params body =>
      -- What is bound in the body does not matter, as it is not evaluated.
      rw [evaluate]
      simp
    | _ =>
      refine leaksOnly_of_parts top (by simp) fun part hpart => (ih part hpart).mono ?_
      exact freeParameters_subset (by simp) hpart

/-- The search `firstParameter` finds the first of the free parameters, and none only where there is
    none. Where it finds none, an expression does not evaluate to the error `variableLeak`, as long
    as no handler gives it. -/
theorem firstParameter_exact (e : Expr) :
    e.firstParameter = e.freeParameters.head? ∧
    (e.firstParameter = none ↔ e.freeParameters = []) ∧
    (e.Discreet → e.firstParameter = none →
      ∀ reference, e.evaluate ≠ .error (.variableLeak reference)) := by
  have hfirst : e.firstParameter = e.freeParameters.head? := by
    rw [firstParameter, firstFree_eq_find?]
    cases e.freeParameters <;> rfl
  have hnone : e.firstParameter = none ↔ e.freeParameters = [] := by
    rw [hfirst, List.head?_eq_none_iff]
  -- A leak would be one of a free parameter, and there is none.
  refine ⟨hfirst, hnone, fun he h reference hleak => ?_⟩
  obtain ⟨p, hp, -⟩ := leaksOnly_evaluate he reference hleak
  rw [hnone.mp h] at hp
  cases hp

/-- A function whose parameter has the name of the one that it refers to, but another type. -/
def retyped : Expr := .lambda [⟨"number", .int .i64⟩] (.parameter ⟨"number", .int .i32⟩)

/-- A call of a method, computed by its handler, with a function that binds its own parameter. -/
def applied : Expr :=
  .call none ⟨.dynamic, "apply", .dynamic, some fun _ args => .ok (.list args)⟩
    [.lambda [⟨"number", .int .i32⟩] (.parameter ⟨"number", .int .i32⟩)]

/-- The handler of `applied` always succeeds. -/
theorem discreet_applied : applied.Discreet := by
  refine .intro ?_ ?_
  · intro handler hhandler target args reference h
    obtain rfl := Option.some.inj hhandler
    cases h
  · simp only [applied, parts, Option.toList_none, List.nil_append, List.forall_mem_singleton]
    refine .intro trivial ?_
    simp only [parts, List.forall_mem_singleton]
    exact .of_leaf rfl trivial

/-- A parameter is bound under its own type only: it is free in `retyped` and bound in `applied`. -/
theorem firstParameter_exact_applied :
    retyped.firstParameter = some ⟨"number", .int .i32⟩ ∧
    (applied.Discreet ∧ applied.firstParameter = none) ∧
    ∀ reference, applied.evaluate ≠ .error (.variableLeak reference) := by
  have hfree : retyped.freeParameters = [⟨"number", .int .i32⟩] := by
    rw [retyped, freeParameters, freeParameters]
    rfl
  have hnone : applied.firstParameter = none := by rfl
  exact ⟨by rw [(firstParameter_exact retyped).1, hfree]; rfl, ⟨discreet_applied, hnone⟩,
    (firstParameter_exact applied).2.2 discreet_applied hnone⟩

end Expr

end DocQuery
