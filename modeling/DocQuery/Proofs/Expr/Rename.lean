import DocQuery.Expr.Evaluate

/-!
# Renaming parameters

The parameters of an expression get new names, where they are bound and where they are read. Types
and values do not depend on names. Where different names stay different the same parameters are
free.

## Key results

- `Expr.rename_congr`: only the new names of the names that occur matter
- `Expr.firstFree_rename`: renaming keeps which parameter is the first free one
- `Expr.evaluate_rename`: an expression without free parameters evaluates as before
-/

namespace DocQuery

/-- The parameter under its new name, with its `type` as it was. -/
def Parameter.rename (σ : String → String) (p : Parameter) : Parameter :=
  { p with name := σ p.name }

theorem Parameter.rename_id : Parameter.rename id = id := rfl

variable {σ : String → String}

/-- Different names stay different, so `==` on parameters is kept. -/
theorem Parameter.beq_rename (hσ : Function.Injective σ) (p q : Parameter) :
    (p.rename σ == q.rename σ) = (p == q) := by
  have hname : (σ p.name == σ q.name) = (p.name == q.name) := by
    rw [Bool.eq_iff_iff, beq_iff_eq, beq_iff_eq, hσ.eq_iff]
  exact congrArg (· && p.type == q.type) hname

/-- The same value on both sides, or errors, which are the same if `σ` is `id`: the texts of errors
    may show names. -/
inductive AnswersAlike {α : Type} (σ : String → String) :
    Except Error α → Except Error α → Prop where
  | ok (a : α) : AnswersAlike σ (.ok a) (.ok a)
  | error {e e' : Error} (h : σ = id → e' = e) : AnswersAlike σ (.error e) (.error e')

namespace AnswersAlike

variable {α β : Type}

/-- A result is `AnswersAlike` with itself, whatever the renaming is. -/
theorem refl (result : Except Error α) : AnswersAlike σ result result := by
  cases result with
  | ok a => exact .ok a
  | error e => exact .error fun _ => rfl

/-- `Except.map` keeps results alike: errors are passed on. -/
theorem map {result result' : Except Error α} (h : AnswersAlike σ result result') (f : α → β) :
    AnswersAlike σ (result.map f) (result'.map f) := by
  cases h with
  | ok a => exact .ok (f a)
  | error he => exact .error he

/-- The same values come out on both sides of `AnswersAlike`. -/
theorem ok_iff {result result' : Except Error α} (h : AnswersAlike σ result result') {a : α} :
    result' = .ok a ↔ result = .ok a := by
  cases h with
  | ok => exact .rfl
  | error => simp

/-- With `id` as the renaming, `AnswersAlike` is equality. -/
theorem eq {result result' : Except Error α} (h : AnswersAlike id result result') :
    result' = result := by
  cases h with
  | ok => rfl
  | error he => exact congrArg Except.error (he rfl)

end AnswersAlike

namespace Expr

mutual

/-- Renames the parameters that the expression binds, in `lambda`, and those that it reads, in
    `parameter`. -/
def rename (σ : String → String) : Expr → Expr
  | constant value type => constant value type
  | parameter p => parameter (p.rename σ)
  | binary op left right => binary op (rename σ left) (rename σ right)
  | unary op operand => unary op (rename σ operand)
  | member target callee => member (renameTarget σ target) callee
  | call target callee args => call (renameTarget σ target) callee (renameAll σ args)
  | construct callee args => construct callee (renameAll σ args)
  | recordInit type bindings => recordInit type (renameBindings σ bindings)
  | array element items => array element (renameAll σ items)
  | conditional test ifTrue ifFalse =>
    conditional (rename σ test) (rename σ ifTrue) (rename σ ifFalse)
  | convert operand type => convert (rename σ operand) type
  | lambda params body => lambda (params.map (Parameter.rename σ)) (rename σ body)

/-- `rename` on a target, which may be missing. -/
def renameTarget (σ : String → String) : Option Expr → Option Expr
  | none => none
  | some target => some (rename σ target)

/-- `rename` on each item of a list, in place of `List.map` for the recursion. -/
def renameAll (σ : String → String) : List Expr → List Expr
  | [] => []
  | e :: rest => rename σ e :: renameAll σ rest

/-- `rename` on the expression of each binding. The names of fields stay. -/
def renameBindings (σ : String → String) : List (String × Expr) → List (String × Expr)
  | [] => []
  | (name, e) :: rest => (name, rename σ e) :: renameBindings σ rest

end

theorem renameTarget_eq_map (target : Option Expr) :
    renameTarget σ target = target.map (rename σ) := by
  cases target <;> rw [renameTarget] <;> rfl

/-- `renameAll` is `List.map`. -/
theorem renameAll_eq_map (es : List Expr) : renameAll σ es = es.map (rename σ) := by
  induction es with
  | nil => rw [renameAll]; rfl
  | cons e rest ih => rw [renameAll, ih]; rfl

mutual

/-- `rename` with `id` changes nothing. -/
theorem rename_id : ∀ e : Expr, e.rename id = e
  | constant value type => by rw [rename]
  | parameter p => by rw [rename, Parameter.rename_id]; rfl
  | binary op left right => by rw [rename, rename_id left, rename_id right]
  | unary op operand => by rw [rename, rename_id operand]
  | member target callee => by rw [rename, renameTarget_id target]
  | call target callee args => by rw [rename, renameTarget_id target, renameAll_id args]
  | construct callee args => by rw [rename, renameAll_id args]
  | recordInit type bindings => by rw [rename, renameBindings_id bindings]
  | array element items => by rw [rename, renameAll_id items]
  | conditional test ifTrue ifFalse => by
    rw [rename, rename_id test, rename_id ifTrue, rename_id ifFalse]
  | convert operand type => by rw [rename, rename_id operand]
  | lambda params body => by rw [rename, rename_id body, Parameter.rename_id, List.map_id]

theorem renameTarget_id : ∀ target : Option Expr, renameTarget id target = target
  | none => by rw [renameTarget]
  | some target => by rw [renameTarget, rename_id target]

theorem renameAll_id : ∀ es : List Expr, renameAll id es = es
  | [] => by rw [renameAll]
  | e :: rest => by rw [renameAll, rename_id e, renameAll_id rest]

theorem renameBindings_id : ∀ bindings : List (String × Expr), renameBindings id bindings = bindings
  | [] => by rw [renameBindings]
  | (name, e) :: rest => by rw [renameBindings, rename_id e, renameBindings_id rest]

end

/-- `rename` keeps the static `type`. -/
@[simp] theorem type_rename : ∀ e : Expr, (e.rename σ).type = e.type
  | constant _ _ => by rw [rename]
  | parameter _ | member _ _ | call _ _ _ | construct _ _ | recordInit _ _ | array _ _
  | convert _ _ | lambda _ _ => by rw [rename]; rfl
  | binary op left right => by rw [rename, type, type, type_rename left, type_rename right]
  | unary op operand => by
    -- A negation has the type of its operand, and a logical negation has always the same.
    rw [rename]
    cases op <;> simp only [type, type_rename operand]
  | conditional test ifTrue ifFalse => by rw [rename, type, type, type_rename ifTrue]

/-! ## Names -/

mutual

/-- The names of the parameters that the expression binds and of those that it reads: those on which
    `rename` depends. -/
def names : Expr → List String
  | constant _ _ => []
  | parameter p => [p.name]
  | binary _ left right => names left ++ names right
  | unary _ operand => names operand
  | member target _ => namesOfTarget target
  | call target _ args => namesOfTarget target ++ namesOfAll args
  | construct _ args => namesOfAll args
  | recordInit _ bindings => namesOfBindings bindings
  | array _ items => namesOfAll items
  | conditional test ifTrue ifFalse => names test ++ (names ifTrue ++ names ifFalse)
  | convert operand _ => names operand
  | lambda params body => params.map Parameter.name ++ names body

/-- The `names` of a target. -/
def namesOfTarget : Option Expr → List String
  | none => []
  | some target => names target

/-- The `names` of a list. -/
def namesOfAll : List Expr → List String
  | [] => []
  | e :: rest => names e ++ namesOfAll rest

/-- The `names` of the expressions of bindings. The names of fields do not count. -/
def namesOfBindings : List (String × Expr) → List String
  | [] => []
  | (_, e) :: rest => names e ++ namesOfBindings rest

end

variable {τ : String → String}

mutual

/-- `rename` depends only on the new names of the `names` that occur. -/
theorem rename_congr : ∀ {e : Expr}, (∀ name ∈ e.names, σ name = τ name) → e.rename σ = e.rename τ
  | constant value type, _ => by rw [rename, rename]
  | parameter p, h => by
    rw [names, List.forall_mem_singleton] at h
    rw [rename, rename, Parameter.rename, Parameter.rename, h]
  | binary op left right, h => by
    rw [names, List.forall_mem_append] at h
    rw [rename, rename, rename_congr h.1, rename_congr h.2]
  | unary op operand, h => by
    rw [names] at h
    rw [rename, rename, rename_congr h]
  | member target callee, h => by
    rw [names] at h
    rw [rename, rename, renameTarget_congr h]
  | call target callee args, h => by
    rw [names, List.forall_mem_append] at h
    rw [rename, rename, renameTarget_congr h.1, renameAll_congr h.2]
  | construct callee args, h => by
    rw [names] at h
    rw [rename, rename, renameAll_congr h]
  | recordInit type bindings, h => by
    rw [names] at h
    rw [rename, rename, renameBindings_congr h]
  | array element items, h => by
    rw [names] at h
    rw [rename, rename, renameAll_congr h]
  | conditional test ifTrue ifFalse, h => by
    rw [names, List.forall_mem_append, List.forall_mem_append] at h
    rw [rename, rename, rename_congr h.1, rename_congr h.2.1, rename_congr h.2.2]
  | convert operand type, h => by
    rw [names] at h
    rw [rename, rename, rename_congr h]
  | lambda params body, h => by
    rw [names, List.forall_mem_append, List.forall_mem_map] at h
    -- The parameters that the lambda binds are among the names, too, and not only those in its
    -- body.
    have hparams : params.map (Parameter.rename σ) = params.map (Parameter.rename τ) :=
      List.map_congr_left fun p hp => congrArg (Parameter.mk · p.type) (h.1 p hp)
    rw [rename, rename, rename_congr h.2, hparams]

/-- `rename_congr` for a target. -/
theorem renameTarget_congr : ∀ {target : Option Expr},
    (∀ name ∈ namesOfTarget target, σ name = τ name) → renameTarget σ target = renameTarget τ target
  | none, _ => by rw [renameTarget, renameTarget]
  | some target, h => by
    rw [namesOfTarget] at h
    rw [renameTarget, renameTarget, rename_congr h]

/-- `rename_congr` for a list. -/
theorem renameAll_congr : ∀ {es : List Expr},
    (∀ name ∈ namesOfAll es, σ name = τ name) → renameAll σ es = renameAll τ es
  | [], _ => by rw [renameAll, renameAll]
  | e :: rest, h => by
    rw [namesOfAll, List.forall_mem_append] at h
    rw [renameAll, renameAll, rename_congr h.1, renameAll_congr h.2]

/-- `rename_congr` for bindings. -/
theorem renameBindings_congr : ∀ {bindings : List (String × Expr)},
    (∀ name ∈ namesOfBindings bindings, σ name = τ name) →
      renameBindings σ bindings = renameBindings τ bindings
  | [], _ => by rw [renameBindings, renameBindings]
  | (name, e) :: rest, h => by
    rw [namesOfBindings, List.forall_mem_append] at h
    rw [renameBindings, renameBindings, rename_congr h.1, renameBindings_congr h.2]

end

/-! ## Free parameters -/

mutual

/-- The first free parameter is the renamed one: as `σ` is injective, a parameter is in `bound`
    exactly where the renamed one is in the renamed `bound`. -/
theorem firstFree_rename (hσ : Function.Injective σ) (bound : List Parameter) :
    ∀ e : Expr, firstFree (bound.map (Parameter.rename σ)) (e.rename σ) =
      (firstFree bound e).map (Parameter.rename σ)
  | constant value type => by rw [rename, firstFree, firstFree]; rfl
  -- A parameter is bound under its new name where it was under the old one.
  | parameter p => by
    have hbound : (bound.map (Parameter.rename σ)).any (· == p.rename σ) =
        bound.any (· == p) := by
      rw [List.any_map]
      exact congrArg bound.any (funext fun q => Parameter.beq_rename hσ q p)
    rw [rename, firstFree, firstFree, hbound]
    split <;> rfl
  -- Of two parts the first with a free parameter counts, on both sides.
  | binary op left right => by
    rw [rename, firstFree, firstFree, firstFree_rename hσ bound left,
      firstFree_rename hσ bound right, Option.map_or]
  | unary op operand => by rw [rename, firstFree, firstFree, firstFree_rename hσ bound operand]
  | member target callee => by
    rw [rename, firstFree, firstFree, firstFreeTarget_rename hσ bound target]
  | call target callee args => by
    rw [rename, firstFree, firstFree, firstFreeTarget_rename hσ bound target,
      firstFreeOf_rename hσ bound args, Option.map_or]
  | construct callee args => by
    rw [rename, firstFree, firstFree, firstFreeOf_rename hσ bound args]
  | recordInit type bindings => by
    rw [rename, firstFree, firstFree, firstFreeBinding_rename hσ bound bindings]
  | array element items => by
    rw [rename, firstFree, firstFree, firstFreeOf_rename hσ bound items]
  | conditional test ifTrue ifFalse => by
    rw [rename, firstFree, firstFree, firstFree_rename hσ bound test,
      firstFree_rename hσ bound ifTrue, firstFree_rename hσ bound ifFalse, Option.map_or,
      Option.map_or]
  | convert operand type => by rw [rename, firstFree, firstFree, firstFree_rename hσ bound operand]
  -- The parameters of the lambda are bound in its body, in addition to the others.
  | lambda params body => by
    rw [rename, firstFree, firstFree, ← List.map_append, firstFree_rename hσ (bound ++ params) body]

/-- `firstFree_rename` for a target. -/
theorem firstFreeTarget_rename (hσ : Function.Injective σ) (bound : List Parameter) :
    ∀ target : Option Expr,
      firstFreeTarget (bound.map (Parameter.rename σ)) (renameTarget σ target) =
        (firstFreeTarget bound target).map (Parameter.rename σ)
  | none => by rw [renameTarget, firstFreeTarget, firstFreeTarget]; rfl
  | some target => by
    rw [renameTarget, firstFreeTarget, firstFreeTarget, firstFree_rename hσ bound target]

/-- `firstFree_rename` for a list. -/
theorem firstFreeOf_rename (hσ : Function.Injective σ) (bound : List Parameter) :
    ∀ es : List Expr, firstFreeOf (bound.map (Parameter.rename σ)) (renameAll σ es) =
      (firstFreeOf bound es).map (Parameter.rename σ)
  | [] => by rw [renameAll, firstFreeOf, firstFreeOf]; rfl
  | e :: rest => by
    rw [renameAll, firstFreeOf, firstFreeOf, firstFree_rename hσ bound e,
      firstFreeOf_rename hσ bound rest, Option.map_or]

/-- `firstFree_rename` for bindings. -/
theorem firstFreeBinding_rename (hσ : Function.Injective σ) (bound : List Parameter) :
    ∀ bindings : List (String × Expr),
      firstFreeBinding (bound.map (Parameter.rename σ)) (renameBindings σ bindings) =
        (firstFreeBinding bound bindings).map (Parameter.rename σ)
  | [] => by rw [renameBindings, firstFreeBinding, firstFreeBinding]; rfl
  | (name, e) :: rest => by
    rw [renameBindings, firstFreeBinding, firstFreeBinding, firstFree_rename hσ bound e,
      firstFreeBinding_rename hσ bound rest, Option.map_or]

end

/-- `firstFree_rename` where nothing is bound yet. -/
theorem firstParameter_rename (hσ : Function.Injective σ) (e : Expr) :
    (e.rename σ).firstParameter = e.firstParameter.map (Parameter.rename σ) :=
  firstFree_rename hσ [] e

/-! ## Evaluation -/

mutual

/-- `evaluate` never gets into a lambda, so where `firstParameter` is `none` no name is read. -/
theorem evaluate_rename : ∀ {e : Expr}, e.firstParameter = none →
    (e.rename σ).evaluate = e.evaluate
  | constant value type, _ => by rw [rename]
  | parameter p, h => by
    -- A parameter outside of every lambda is free.
    rw [firstParameter, firstFree] at h
    cases h
  | binary op left right, h => by
    rw [firstParameter, firstFree, Option.or_eq_none_iff] at h
    -- The operator is applied at the static type of the node, which renaming keeps.
    have htype : (binary op (left.rename σ) (right.rename σ)).type =
        (binary op left right).type := by
      rw [type, type, type_rename, type_rename]
    rw [rename]
    -- `rw [evaluate]` would ask which operator it is; the equation for all of them is in the
    -- definition.
    unfold evaluate
    rw [evaluate_rename h.1, evaluate_rename h.2, htype]
  | unary op operand, h => by
    rw [firstParameter, firstFree] at h
    rw [rename, evaluate, evaluate, evaluate_rename h]
  | member target callee, h => by
    rw [firstParameter, firstFree] at h
    rw [rename, evaluate, evaluate, evaluateTarget_rename h]
  | call target callee args, h => by
    rw [firstParameter, firstFree, Option.or_eq_none_iff] at h
    rw [rename, evaluate, evaluate, evaluateTarget_rename h.1, evaluateAll_rename h.2]
  | construct callee args, h => by
    rw [firstParameter, firstFree] at h
    rw [rename, evaluate, evaluate, evaluateAll_rename h]
  | recordInit type bindings, h => by
    rw [firstParameter, firstFree] at h
    rw [rename, evaluate, evaluate, evaluateBindings_rename _ h]
  | array element items, h => by
    rw [firstParameter, firstFree] at h
    rw [rename, evaluate, evaluate, evaluateAll_rename h]
  | conditional test ifTrue ifFalse, h => by
    rw [firstParameter, firstFree, Option.or_eq_none_iff, Option.or_eq_none_iff] at h
    rw [rename, evaluate, evaluate, evaluate_rename h.1.1, evaluate_rename h.1.2,
      evaluate_rename h.2]
  | convert operand type, h => by
    rw [firstParameter, firstFree] at h
    rw [rename, evaluate, evaluate, evaluate_rename h]
  | lambda params body, _ => by rw [rename, evaluate, evaluate]

/-- `evaluate_rename` for a target. -/
theorem evaluateTarget_rename : ∀ {target : Option Expr}, firstFreeTarget [] target = none →
    evaluateTarget (renameTarget σ target) = evaluateTarget target
  | none, _ => by rw [renameTarget]
  | some target, h => by
    rw [firstFreeTarget] at h
    rw [renameTarget, evaluateTarget, evaluateTarget, evaluate_rename h]

/-- `evaluate_rename` for a list. -/
theorem evaluateAll_rename : ∀ {es : List Expr}, firstFreeOf [] es = none →
    evaluateAll (renameAll σ es) = evaluateAll es
  | [], _ => by rw [renameAll]
  | e :: rest, h => by
    rw [firstFreeOf, Option.or_eq_none_iff] at h
    rw [renameAll, evaluateAll, evaluateAll, evaluate_rename h.1, evaluateAll_rename h.2]

/-- `evaluate_rename` for bindings, which are set in the record one after another. -/
theorem evaluateBindings_rename (record : RecordValue) :
    ∀ {bindings : List (String × Expr)}, firstFreeBinding [] bindings = none →
      evaluateBindings record (renameBindings σ bindings) = evaluateBindings record bindings
  | [], _ => by rw [renameBindings]
  | (name, e) :: rest, h => by
    rw [firstFreeBinding, Option.or_eq_none_iff] at h
    rw [renameBindings, evaluateBindings, evaluateBindings, evaluate_rename h.1]
    refine bind_congr fun v => bind_congr fun record => ?_
    exact evaluateBindings_rename record h.2

end

end Expr

end DocQuery
