import DocQuery.Proofs.Compile.Linear
import DocQuery.Proofs.Expr.Evaluate

/-!
# What a compilation emits

With a linear registry the compiler emits, for every expression, one term that uses each operand at
most once. It hands out at most as many slots as the expression has parameters to bind, and it
leaves the bindings of the scope as they were, whether or not it succeeds.

## Key results

- `Compiler.runPlan_emits`: a linear plan emits its term
- `Compiler.lower_emits`: so does every expression, by induction on it
-/

namespace DocQuery

variable {inv : ConverterCache → Prop} {carried : Datum → Prop} {allowed : Value → Prop}

namespace Expr

mutual

/-- How many parameters the functions anywhere in an expression bind, and so how many slots a
    compilation hands out at most. -/
def parameterCount : Expr → Nat
  | constant _ _ | parameter _ => 0
  | binary _ left right => parameterCount left + parameterCount right
  | unary _ operand => parameterCount operand
  | member target _ => parameterCountOfTarget target
  | call target _ args => parameterCountOfTarget target + (parameterCounts args).sum
  | construct _ args => (parameterCounts args).sum
  | recordInit _ bindings => (parameterCountsOfBindings bindings).sum
  | array _ items => (parameterCounts items).sum
  | conditional test ifTrue ifFalse =>
    parameterCount test + (parameterCount ifTrue + parameterCount ifFalse)
  | convert operand _ => parameterCount operand
  | lambda params body => params.length + parameterCount body

/-- The `parameterCount` of a target, if there is one. -/
def parameterCountOfTarget : Option Expr → Nat
  | none => 0
  | some target => parameterCount target

/-- The `parameterCount` of each of some expressions. -/
def parameterCounts : List Expr → List Nat
  | [] => []
  | e :: rest => parameterCount e :: parameterCounts rest

/-- The `parameterCount` of what each binding binds. -/
def parameterCountsOfBindings : List (String × Expr) → List Nat
  | [] => []
  | (_, e) :: rest => parameterCount e :: parameterCountsOfBindings rest

end

end Expr

namespace Compiler

open Lowering (Action Emits)
open Term (Yields)

/-- The registry is linear, the engine keeps the invariant of its converters, and the datums of
    literals are `carried`: those of `allowed` values and those that the compiler makes up. -/
structure Regular (inv : ConverterCache → Prop) (carried : Datum → Prop) (allowed : Value → Prop)
    (c : Compiler) : Prop where
  constants : Datum.Constants carried
  resolved : ∀ type, (c.engine.resolve type).Keeps inv
  encoded : ∀ type value, allowed value → (c.engine.encode type value).Ensures inv carried
  registry : c.registry.Linear carried allowed

variable {c : Compiler}

/-! ## Terms that the compiler makes up -/

/-- The literal of an `allowed` value takes nothing of what was compiled. -/
theorem literal_emits (hc : c.Regular inv carried allowed) {value : Value} (hvalue : allowed value)
    (type : Ty) : Emits inv carried [] (c.literal value type) (fun t => [t]) 0 := by
  have hencode : Emits inv carried [] (Lowering.ofSession (c.engine.encode type value))
      (fun datum => [Term.literal datum]) 0 :=
    .ofSession ((hc.encoded type value hvalue).imp fun _ hd => .literal hd [])
  exact hencode.bind fun datum => .pure (.refl _)

/-- What `fold` evaluates on the client becomes a literal. -/
theorem fold_emits (hc : c.Regular inv carried allowed) {e : Expr}
    (he : ∀ v, e.evaluate = .ok v → allowed v) :
    Emits inv carried [] (c.fold e) (fun t => [t]) 0 := by
  unfold fold
  -- The refusals come first: for a parameter that is left over, and where evaluation is off.
  split
  · exact .throw _
  · split
    · exact .throw _
    · cases hvalue : e.evaluate with
      | error error => exact .throw error
      | ok value => exact literal_emits hc (he value hvalue) e.type

/-- A parameter is read from a slot in scope: `slotOf` finds one of those that are bound. -/
theorem slotOf_emits (p : Parameter) :
    Emits inv carried [] (do
      let state ← get
      let slot ← MonadExcept.ofExcept (state.scope.slotOf p)
      return Term.var slot) (fun t => [t]) 0 := by
  intro before first hinv hgiven
  rw [Lowering.run_get_bind]
  -- Looking a slot up leaves the state as it is, and may fail.
  cases h : before.scope.slotOf p with
  | error e => exact ⟨.of_scope_eq rfl hinv 0, fun _ ht => by cases ht⟩
  | ok slot =>
    refine ⟨.of_scope_eq rfl hinv 0, fun t ht => ?_⟩
    obtain rfl := Except.ok.inj ht
    exact .var (Scope.slotOf_mem h) hgiven

/-- The term of a unary operation is built from that of its operand, and for `negate` from a zero as
    well. -/
theorem unaryTerm_yields (hcarried : Datum.Constants carried) (op : UnaryOp) (t : Term) :
    Yields carried [t] [unaryTerm op t] := by
  cases op with
  | not => exact .args rfl
  | negate =>
    -- The operand is subtracted from zero, which is put in before it.
    have hzero : Yields carried [t] [t, Term.literal (.ofInt 0)] :=
      .literal (hcarried.integer 0 (by omega)) [t]
    have hswap : Yields carried [t, Term.literal (.ofInt 0)] [Term.literal (.ofInt 0), t] :=
      .of_subperm (List.Perm.swap ..).subperm
    exact (hzero.trans hswap).trans (.args rfl)
  | length => exact .args rfl

/-- The term that reads a field is built from that of the object, with the name as a literal. -/
theorem getField_yields (hcarried : Datum.Constants carried) (object : Term) (name : String) :
    Yields carried [object] [Term.getField object name] :=
  (Yields.literal (hcarried.string name) [object]).trans (.args rfl)

/-- The names of an object are distinct, and of fields with one name `Members.ofList` keeps the
    later one. -/
theorem makeObject_yields (members : List (String × Term)) :
    Yields carried (members.map Prod.snd) [Term.makeObject members] := by
  have hkept : Yields carried (members.map Prod.snd) ((Members.ofList members).map Prod.snd) :=
    .of_subperm (Members.values_ofList_subperm members)
  have hobject : Yields carried (Term.makeObject members).parts [Term.makeObject members] :=
    .node rfl TermKind.noConfusion (Members.nodup_ofList members)
  exact hkept.trans hobject

/-! ## Overrides and templates -/

variable {target : Option Action} {operands : List Action} {m : Nat} {counts : List Nat}

/-- A linear plan emits its term by `runPlan`. Of the target and the operands only those count that
    it may still compile. -/
theorem runPlan_emits (hc : c.Regular inv carried allowed)
    (htarget : ∀ action ∈ target, action.Emits inv carried m)
    (hoperands : List.Forall₂ (Action.Emits inv carried) operands counts) {plan : Plan} {t o : Bool}
    {given : List Term} (hplan : plan.Linear carried allowed t o given) :
    Emits inv carried given (c.runPlan target operands plan) (fun t => [t])
      ((if t then m else 0) + if o then counts.sum else 0) := by
  -- On the steps of the plan: what a step compiles joins what is given, and counts only there.
  induction hplan with
  | @done _ _ _ term h =>
    have hdone : Emits inv carried _ (Pure.pure term : Lowering Term) (fun t => [t]) 0 := .pure h
    exact hdone.mono (Nat.zero_le _)
  | fail error => exact (Emits.throw error).mono (Nat.zero_le _)
  | target _ ih =>
    apply (((targetTerm_emits htarget).frame _).bind ih).mono
    simp
  | operands _ ih =>
    apply (((operandTerms_emits hoperands _).frame _).bind ih).mono
    simp
    -- What was counted before the operands are compiled is counted after them.
    omega
  | literal hvalue _ ih =>
    apply (((literal_emits hc hvalue _).frame _).bind ih).mono
    simp
  | depth _ ih => exact .get_bind fun state => ih state.scope.depth

/-- A template is filled in with the compiled target and operands, each of them at most once. -/
theorem fillIn_emits (htarget : ∀ action ∈ target, action.Emits inv carried m)
    (hoperands : List.Forall₂ (Action.Emits inv carried) operands counts) {template : Template}
    (htemplate : template.Linear carried) :
    Emits inv carried [] (fillIn template target operands) (fun t => [t]) (m + counts.sum) := by
  unfold fillIn
  refine (targetTerm_emits htarget).bind fun t => ?_
  have hargs := (operandTerms_emits hoperands .operand).frame t.toList
  exact hargs.bind fun args => .ofExcept fun term hterm => htemplate.instantiate hterm

/-! ## Nodes -/

variable {left right operand e : Expr} {callee : Callee} {action l r : Action} {n : Nat}
  {object : Option Expr}

/-- A binary operation emits its term, by an override of the registry or as a node of its
    operands. -/
theorem compileBinary_emits (hc : c.Regular inv carried allowed) (hl : l.Emits inv carried m)
    (hr : r.Emits inv carried n) (op : BinaryOp) :
    Emits inv carried [] (c.compileBinary op left right l r) (fun t => [t]) (m + n) := by
  unfold compileBinary
  split
  · rename_i o hfound
    -- The left operand is the target of the override, and the right one its only operand.
    have htarget : ∀ action ∈ some l, action.Emits inv carried m := by
      rintro _ ⟨⟩
      exact hl
    have h := runPlan_emits hc htarget (.cons hr .nil)
      (hc.registry.of_binary? hfound (some left) [right])
    simpa using h
  · refine (hl .operand).bind fun t => ?_
    have hkind : (operatorKind op).plain = true := by cases op <;> rfl
    exact ((hr .operand).frame [t]).bind fun u => .pure (.args hkind)

/-- A unary operation emits its term, by an override of the registry or as a node of its operand. -/
theorem compileUnary_emits (hc : c.Regular inv carried allowed)
    (haction : action.Emits inv carried m) (op : UnaryOp) :
    Emits inv carried [] (c.compileUnary op operand action) (fun t => [t]) m := by
  unfold compileUnary
  split
  · rename_i o hfound
    -- `htarget` speaks of all actions that the plan may get, of which there is one.
    have htarget : ∀ a ∈ some action, a.Emits inv carried m := by
      rintro _ ⟨⟩
      exact haction
    have h := runPlan_emits hc htarget .nil (hc.registry.of_unary? hfound (some operand) [])
    simpa using h
  · exact (haction .operand).bind fun t => .pure (unaryTerm_yields hc.constants op t)

/-- Finding a document name emits no term. -/
theorem wireName?_emits (hc : c.Regular inv carried allowed) (type : Ty) (name : String) :
    Emits inv carried [] (c.wireName? type name) (fun _ => []) 0 := by
  have hresolve (t : Ty) :
      Emits inv carried [] (Lowering.ofSession (c.engine.resolve t)) (fun _ => []) 0 :=
    .ofSession ((hc.resolved t).imp fun _ _ => .refl [])
  exact (hresolve _).bind fun converter => .pure (.refl [])

/-- A field access emits its term: a lookup in the term of the target, or a literal of what is
    evaluated. -/
theorem compileField_emits (hc : c.Regular inv carried allowed)
    (he : ∀ v, e.evaluate = .ok v → allowed v)
    (htarget : ∀ action ∈ target, action.Emits inv carried m) :
    Emits inv carried [] (c.compileField e callee object target) (fun t => [t]) m := by
  unfold compileField
  split
  · -- Without a target, or with a constant one, the access is evaluated on the client.
    exact (fold_emits hc he).mono (Nat.zero_le m)
  · exact (fold_emits hc he).mono (Nat.zero_le m)
  · exact (fold_emits hc he).mono (Nat.zero_le m)
  · rename_i _ action _
    refine ((wireName?_emits hc _ _).bind fun name => ?_).mono (Nat.zero_add m).le
    cases name with
    | none => exact (fold_emits hc he).mono (Nat.zero_le m)
    | some name =>
      have hget (object : Term) : Emits inv carried [object]
          (Pure.pure (object.getField name) : Lowering Term) (fun t => [t]) 0 :=
        .pure (getField_yields hc.constants object name)
      exact (htarget action rfl .operand).bind hget

/-- A member emits its term, by an override, by a template or as a field access. -/
theorem compileMember_emits (hc : c.Regular inv carried allowed)
    (he : ∀ v, e.evaluate = .ok v → allowed v)
    (htarget : ∀ action ∈ target, action.Emits inv carried m) :
    Emits inv carried [] (c.compileMember e callee object target) (fun t => [t]) m := by
  unfold compileMember
  -- First an override, then a template, then the field of the document.
  split
  · rename_i o hfound
    have h := runPlan_emits hc htarget .nil (hc.registry.of_member? hfound object [])
    simpa using h
  · split
    · rename_i template hfound
      exact fillIn_emits htarget .nil (hc.registry.of_template? hfound)
    · exact compileField_emits hc he htarget

/-- A call emits its term, by an override, by a template or as a literal of what is evaluated. -/
theorem compileCall_emits (hc : c.Regular inv carried allowed) {args : List Expr}
    (he : ∀ v, e.evaluate = .ok v → allowed v)
    (htarget : ∀ action ∈ target, action.Emits inv carried m)
    (hoperands : List.Forall₂ (Action.Emits inv carried) operands counts) :
    Emits inv carried [] (c.compileCall e callee object args target operands) (fun t => [t])
      (m + counts.sum) := by
  unfold compileCall
  split
  · rename_i o hfound
    exact runPlan_emits hc htarget hoperands (hc.registry.of_method? hfound object args)
  · dsimp only
    split
    · rename_i template hfound
      -- The number of operands is checked first, which emits nothing.
      have harity : Emits inv carried []
          (MonadExcept.ofExcept (template.checkArity e.text args.length)) (fun _ => []) 0 :=
        .ofExcept fun _ _ => .refl []
      refine (harity.bind fun _ => ?_).mono (Nat.zero_add _).le
      exact fillIn_emits htarget hoperands (hc.registry.of_template? hfound)
    · exact (fold_emits hc he).mono (Nat.zero_le _)

/-- A construction emits its term, by an override or as a literal of what is evaluated. -/
theorem compileConstruct_emits (hc : c.Regular inv carried allowed) {args : List Expr}
    (he : ∀ v, e.evaluate = .ok v → allowed v)
    (hoperands : List.Forall₂ (Action.Emits inv carried) operands counts) :
    Emits inv carried [] (c.compileConstruct e callee args operands) (fun t => [t]) counts.sum := by
  unfold compileConstruct
  split
  · rename_i o hfound
    -- A constructor has no target.
    have htarget : ∀ action ∈ (none : Option Action), action.Emits inv carried 0 :=
      fun _ h => by cases h
    have h := runPlan_emits hc htarget hoperands (hc.registry.of_constructor? hfound none args)
    simpa using h
  · exact (fold_emits hc he).mono (Nat.zero_le _)

/-- Finding the document name of a field by `fieldName` keeps what finding converters keeps. -/
theorem fieldName_keeps (hc : c.Regular inv carried allowed) (record : Ty) (name : String) :
    (c.engine.fieldName record name).Keeps inv := by
  refine (hc.resolved record).bind fun converter _ => ?_
  split
  · exact .throw _
  · split
    · exact .pure trivial
    · exact .throw _

/-- The fields of a record give their terms in order, whatever their document names. An error of
    `fieldName` is caught, and the slots handed out before it stay taken. -/
theorem compileBindings_emits (hc : c.Regular inv carried allowed) (e : Expr) (record : Ty)
    {bindings : List (String × Action)}
    (h : List.Forall₂ (fun b count => Action.Emits inv carried b.2 count) bindings counts) :
    Emits inv carried [] (c.compileBindings e record bindings) (fun members => members.map Prod.snd)
      counts.sum := by
  induction h with
  | nil => exact .pure (.refl [])
  | @cons b count _ _ hfirst _ ih =>
    obtain ⟨name, action⟩ := b
    rw [List.sum_cons, ← Nat.zero_add (count + _)]
    have hname : Emits inv carried [] (Lowering.ofSession (c.engine.fieldName record name)).attempt
        (fun _ => []) 0 :=
      Emits.attempt (.ofSession ((fieldName_keeps hc record name).imp fun _ _ => .refl []))
    refine hname.bind fun result => ?_
    cases result with
    | error error => exact (Emits.throw _).mono (Nat.zero_le _)
    | ok wireName =>
      refine (hfirst .body).bind fun value => ?_
      -- The terms of the later fields come after that of the first one, as in the list.
      exact (ih.frame [value]).bind (f := fun members => Pure.pure ((wireName, value) :: members))
        fun members => .pure (.refl _)

/-! ## Expressions -/

mutual

/-- An expression of which every part evaluates to `allowed` values emits one term. The actions of
    its parts are known to by induction, and each kind of node puts them together. -/
theorem lower_emits (hc : c.Regular inv carried allowed) :
    ∀ e : Expr, e.Evaluates allowed → Action.Emits inv carried (lower c e) e.parameterCount
  -- Constants are evaluated on the client, and `Regular` says what their datum may be.
  | .constant value type, he, _ => by
    rw [lower]
    exact literal_emits hc (he.at_top value (by rw [Expr.evaluate])) type
  | .parameter p, _, _ => by
    rw [lower]
    exact slotOf_emits p
  | .binary op left right, he, _ => by
    rw [lower, Expr.parameterCount]
    exact compileBinary_emits hc (lower_emits hc left (he.at_part (.head _)))
      (lower_emits hc right (he.at_part (.tail _ (.head _)))) op
  | .unary op operand, he, _ => by
    rw [lower, Expr.parameterCount]
    exact compileUnary_emits hc (lower_emits hc operand (he.at_part (.head _))) op
  | .member target callee, he, _ => by
    rw [lower, Expr.parameterCount]
    -- The target is a part of the expression where there is one, and so is each argument.
    refine compileMember_emits hc he.at_top (lowerTarget_emits hc target fun e h => ?_)
    exact he.at_part (Option.mem_toList.mpr h)
  | .call target callee args, he, _ => by
    rw [lower, Expr.parameterCount]
    refine compileCall_emits hc he.at_top (lowerTarget_emits hc target fun e h => ?_)
      (lowerAll_emits hc args fun e h => ?_)
    · exact he.at_part (List.mem_append_left _ (Option.mem_toList.mpr h))
    · exact he.at_part (List.mem_append_right _ h)
  | .construct callee args, he, _ => by
    rw [lower, Expr.parameterCount]
    exact compileConstruct_emits hc he.at_top (lowerAll_emits hc args fun e h => he.at_part h)
  | .recordInit type bindings, he, position => by
    rw [lower, Expr.parameterCount]
    -- In a body the record becomes an object; elsewhere it is evaluated.
    split
    · have hmembers := compileBindings_emits hc (.recordInit type bindings) (.record type)
        (lowerBindings_emits hc bindings fun b h => he.at_part (List.mem_map_of_mem h))
      exact hmembers.bind fun members => .pure (makeObject_yields members)
    · exact (fold_emits hc he.at_top).mono (Nat.zero_le _)
  | .array _ items, he, _ => by
    rw [lower, Expr.parameterCount]
    have hitems := lowerAll_emits hc items fun e h => he.at_part h
    exact (operandTerms_emits hitems .operand).bind fun items => .pure (.args rfl)
  | .conditional test ifTrue ifFalse, he, _ => by
    rw [lower, Expr.parameterCount]
    have htest := lower_emits hc test (he.at_part (.head _))
    have hifTrue := lower_emits hc ifTrue (he.at_part (.tail _ (.head _)))
    have hifFalse := lower_emits hc ifFalse (he.at_part (.tail _ (.tail _ (.head _))))
    -- The terms of the earlier parts stay at hand while the later ones are compiled.
    refine (htest .operand).bind fun t => ?_
    refine ((hifTrue .body).frame [t]).bind fun u => ?_
    exact ((hifFalse .body).frame ([t] ++ [u])).bind fun v => .pure (.args rfl)
  | .convert operand type, he, position => by
    -- The check emits nothing, so the operand alone counts.
    rw [lower, Expr.parameterCount]
    have hcheck : Emits inv carried [] (MonadExcept.ofExcept (checkConversion operand type))
        (fun _ => []) 0 := .ofExcept fun _ _ => .refl []
    have hoperand := lower_emits hc operand (he.at_part (.head _))
    exact (hcheck.bind fun _ => hoperand position).mono (Nat.zero_add _).le
  | .lambda params body, he, _ => by
    rw [lower, Expr.parameterCount]
    exact compileFunction_emits (lower_emits hc body (he.at_part (.head _)))

/-- The target of a member or call emits one term, where there is a target. -/
theorem lowerTarget_emits (hc : c.Regular inv carried allowed) :
    ∀ target : Option Expr, (∀ e ∈ target, e.Evaluates allowed) →
      ∀ action ∈ lowerTarget c target,
        Action.Emits inv carried action (Expr.parameterCountOfTarget target)
  | none, _, _, h => by
    rw [lowerTarget] at h
    cases h
  | some target, he, _, h => by
    rw [lowerTarget] at h
    obtain rfl := Option.mem_some_iff.mp h
    rw [Expr.parameterCountOfTarget]
    exact lower_emits hc target (he target rfl)

/-- Operands emit one term each, in their order. -/
theorem lowerAll_emits (hc : c.Regular inv carried allowed) :
    ∀ es : List Expr, (∀ e ∈ es, e.Evaluates allowed) →
      List.Forall₂ (Action.Emits inv carried) (lowerAll c es) (Expr.parameterCounts es)
  | [], _ => by
    rw [lowerAll, Expr.parameterCounts]
    exact .nil
  | e :: rest, he => by
    rw [lowerAll, Expr.parameterCounts]
    exact .cons (lower_emits hc e (he e (.head _)))
      (lowerAll_emits hc rest fun e h => he e (.tail _ h))

/-- Bindings emit one term each, in their order. -/
theorem lowerBindings_emits (hc : c.Regular inv carried allowed) :
    ∀ bindings : List (String × Expr), (∀ b ∈ bindings, b.2.Evaluates allowed) →
      List.Forall₂ (fun b count => Action.Emits inv carried b.2 count) (lowerBindings c bindings)
        (Expr.parameterCountsOfBindings bindings)
  | [], _ => by
    rw [lowerBindings, Expr.parameterCountsOfBindings]
    exact .nil
  | (name, e) :: rest, he => by
    rw [lowerBindings, Expr.parameterCountsOfBindings]
    exact .cons (lower_emits hc e (he (name, e) (.head _)))
      (lowerBindings_emits hc rest fun b h => he b (.tail _ h))

end

end Compiler

end DocQuery
