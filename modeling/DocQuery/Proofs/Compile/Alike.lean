import DocQuery.Proofs.Compile.Lowering
import DocQuery.Proofs.Compile.Linear
import DocQuery.Proofs.Expr.Evaluate
import DocQuery.Proofs.Expr.Rename

/-!
# Two compilations side by side

An expression is compiled beside the expression with renamed parameters, from a scope and the scope
with the same new names, and from two caches that are related. The compilations are alike when they
end with the same term or both with an error, again in one scope up to names and with related
caches. One exception is made: the first compilation may end early with an error that is let
through, and then nothing is said of the second one. Steps that are alike are composed as the steps
are, so two compilers that look converters up alike, on the types that an expression mentions,
compile the expression alike.

Where all names are kept this compares two compilations of one expression, and errors are the same.

## Key results

- `Lowering.Alike.bind`, `Compiler.compileFunction_alike`: composition, also where a scope is opened
- `Compiler.lower_alike`: two compilers that look converters up alike compile alike
- `Registry.uniform_defaults`: the default registrations do not look at names
-/

namespace DocQuery

variable {α β : Type} {σ : String → String} {caches : ConverterCache → ConverterCache → Prop}
  {escapes : Error → Prop}

/-- From related caches both sessions answer the same and leave related caches. -/
def Session.Alike (caches : ConverterCache → ConverterCache → Prop) (s s' : Session α) : Prop :=
  ∀ cache cache', caches cache cache' →
    (s.run cache).1 = (s'.run cache').1 ∧ caches (s.run cache).2 (s'.run cache').2

/-- From one cache a session answers as itself, so it is alike to itself under `Eq`. -/
theorem Session.alike_self (s : Session α) : s.Alike Eq s := by
  rintro cache _ rfl
  exact ⟨rfl, rfl⟩

namespace Lowering

/-- How two runs end: the first one with an error that `escapes`, or both alike, in scopes that are
    one up to `σ`. -/
inductive Ends (σ : String → String) (caches : ConverterCache → ConverterCache → Prop)
    (escapes : Error → Prop) :
    Except Error α × CompileState → Except Error α × CompileState → Prop where
  | escaped {e : Error} {after : CompileState} {other : Except Error α × CompileState}
    (h : escapes e) : Ends σ caches escapes (.error e, after) other
  | same {result result' : Except Error α} {scope : Scope} {cache cache' : ConverterCache}
    (hresult : AnswersAlike σ result result') (h : caches cache cache') :
    Ends σ caches escapes (result, ⟨scope, cache⟩) (result', ⟨scope.rename σ, cache'⟩)

namespace Ends

variable {run run' : Except Error α × CompileState}

/-- Where all names are kept and the first run does not end early, both end with one result. -/
theorem escapes_or_eq (h : Ends id caches escapes run run') :
    (∃ e, run.1 = .error e ∧ escapes e) ∨
      run'.1 = run.1 ∧ caches run.2.cache run'.2.cache := by
  cases h with
  | escaped he => exact .inl ⟨_, rfl, he⟩
  | same hresult hcaches => exact .inr ⟨hresult.eq, hcaches⟩

/-- Where no error is let through, both runs end with one term or both with an error. -/
theorem ok_iff (h : Ends σ caches (fun _ => False) run run') :
    (∀ a, run'.1 = .ok a ↔ run.1 = .ok a) ∧ caches run.2.cache run'.2.cache := by
  cases h with
  | escaped he => exact he.elim
  | same hresult hcaches => exact ⟨fun _ => hresult.ok_iff, hcaches⟩

end Ends

/-- From one scope up to names and related caches both steps end alike, by `Ends`. -/
def Alike (σ : String → String) (caches : ConverterCache → ConverterCache → Prop)
    (escapes : Error → Prop) (step step' : Lowering α) : Prop :=
  ∀ scope cache cache', caches cache cache' →
    Ends σ caches escapes (step.run ⟨scope, cache⟩) (step'.run ⟨scope.rename σ, cache'⟩)

namespace Alike

theorem pure (a : α) : Alike σ caches escapes (Pure.pure a) (Pure.pure a) :=
  fun _ _ _ h => .same (.ok a) h

/-- Steps that end with errors are alike. The errors have to be one only where `σ` keeps all
    names. -/
theorem throw {e e' : Error} (he : σ = id → e' = e) :
    Alike σ caches escapes (MonadExcept.throw e : Lowering α) (MonadExcept.throw e') :=
  fun _ _ _ h => .same (.error he) h

/-- The error may show the expression, with the names that it has on each side. -/
theorem throw_rename (error : Expr → Error) (e : Expr) :
    Alike σ caches escapes (MonadExcept.throw (error e) : Lowering α)
      (MonadExcept.throw (error (e.rename σ))) := by
  refine throw fun hid => ?_
  rw [hid, Expr.rename_id]

/-- An error that `escapes` stands before anything. -/
theorem escape {e : Error} (he : escapes e) (step : Lowering α) :
    Alike σ caches escapes (MonadExcept.throw e) step :=
  fun _ _ _ _ => .escaped he

theorem ofExcept {result result' : Except Error α} (h : AnswersAlike σ result result') :
    Alike σ caches escapes (MonadExcept.ofExcept result) (MonadExcept.ofExcept result') := by
  cases h with
  | ok a => exact pure a
  | error he => exact throw he

/-- Steps are alike in sequence: the second ones start from one scope up to names and related caches
    again, unless the first run has ended early. -/
theorem bind {step step' : Lowering α} {f f' : α → Lowering β}
    (h : Alike σ caches escapes step step') (hf : ∀ a, Alike σ caches escapes (f a) (f' a)) :
    Alike σ caches escapes (step >>= f) (step' >>= f') := by
  intro scope cache cache' hcaches
  have hends := h scope cache cache' hcaches
  rcases hrun : step.run ⟨scope, cache⟩ with ⟨result, after⟩
  rcases hrun' : step'.run ⟨scope.rename σ, cache'⟩ with ⟨result', after'⟩
  rw [hrun, hrun'] at hends
  cases hends with
  | escaped he =>
    rw [run_bind_error hrun]
    exact .escaped he
  | same hresult hmiddle =>
    cases hresult with
    | error he =>
      rw [run_bind_error hrun, run_bind_error hrun']
      -- Both runs end here, with errors that are one where all names are kept.
      exact .same (.error he) hmiddle
    | ok a =>
      rw [run_bind_ok hrun, run_bind_ok hrun']
      exact hf a _ _ _ hmiddle

/-- Steps that look at the state are alike where what they go on with is, for every such pair of
    states. -/
theorem get_bind {f f' : CompileState → Lowering α}
    (h : ∀ scope cache cache',
      Alike σ caches escapes (f ⟨scope, cache⟩) (f' ⟨scope.rename σ, cache'⟩)) :
    Alike σ caches escapes (get >>= f) (get >>= f') :=
  fun scope cache cache' hcaches => h scope cache cache' scope cache cache' hcaches

/-- Sessions that are alike are so as steps, since they leave the scope alone. -/
theorem ofSession {s s' : Session α} (h : s.Alike caches s') :
    Alike σ caches escapes (Lowering.ofSession s) (Lowering.ofSession s') := by
  intro scope cache cache' hcaches
  obtain ⟨hresult, hafter⟩ := h cache cache' hcaches
  rw [run_ofSession, run_ofSession, hresult]
  exact .same (.refl _) hafter

/-- Of computations on the converters the errors are alike too, so `attempt` may look at them. -/
theorem attempt_ofSession {s s' : Session α} (h : s.Alike caches s') :
    Alike σ caches escapes (Lowering.ofSession s).attempt (Lowering.ofSession s').attempt := by
  intro scope cache cache' hcaches
  obtain ⟨hresult, hafter⟩ := h cache cache' hcaches
  rw [run_attempt, run_attempt, run_ofSession, run_ofSession, hresult]
  exact .same (.ok _) hafter

end Alike

/-- In every position the actions are alike. -/
def Action.Alike (σ : String → String) (caches : ConverterCache → ConverterCache → Prop)
    (escapes : Error → Prop) (action action' : Action) : Prop :=
  ∀ position, Lowering.Alike σ caches escapes (action position) (action' position)

end Lowering

/-! ## Overrides and names -/

/-- The plan of the override does not depend on the names of parameters, as `σ` changes them. -/
def Override.Uniform (σ : String → String) (o : Override) : Prop :=
  ∀ target operands, o.plan (target.map (Expr.rename σ)) (operands.map (Expr.rename σ)) =
    o.plan target operands

namespace Override

/-- Where `σ` keeps all names, nothing changes that a plan could depend on. -/
theorem uniform_id (o : Override) : o.Uniform id := by
  have hrename : Expr.rename id = id := funext Expr.rename_id
  intro target operands
  rw [hrename, Option.map_id, List.map_id]
  rfl

/-- The override `accessor` only asks whether there is a target. -/
theorem uniform_accessor (kind : TermKind) : (accessor kind).Uniform σ := by
  intro target operands
  cases target <;> rfl

/-- The override `receiver` only asks whether there is a target. -/
theorem uniform_receiver (name : String) : (receiver name).Uniform σ := by
  intro target operands
  cases target <;> rfl

/-- The override `ofTemplate` only looks at the number of operands. -/
theorem uniform_ofTemplate (call : String) (template : Template) :
    (ofTemplate call template).Uniform σ := by
  intro target operands
  simp only [ofTemplate, List.length_map]

end Override

namespace Registry

/-- The overrides of members among the default registrations are `Uniform`. -/
theorem uniform_defaultMembers : ∀ m ∈ defaultMembers, m.2.2.Uniform σ := by
  intro m hm
  -- The accessors of the owners first, then the one member of options.
  rcases List.mem_append.mp hm with hm | hm
  · obtain ⟨owner, -, hm⟩ := List.mem_flatMap.mp hm
    obtain ⟨accessor, -, rfl⟩ := List.mem_map.mp hm
    exact Override.uniform_accessor _
  · obtain rfl := List.mem_singleton.mp hm
    exact Override.uniform_receiver _

/-- The overrides of operators among the default registrations are `Uniform`. -/
theorem uniform_defaultOperators : ∀ m ∈ defaultOperators, m.2.2.2.Uniform σ := by
  simp only [defaultOperators, List.forall_mem_cons]
  exact ⟨fun _ _ => rfl, fun _ _ => rfl, fun _ _ => rfl, List.forall_mem_nil _⟩

/-- The default registrations do not look at the names of parameters: all of them are `Uniform`. -/
theorem uniform_defaults : defaults.Every (Override.Uniform σ) fun _ => True :=
  .defaults uniform_defaultMembers (fun _ _ => trivial)
    (fun m _ call => Override.uniform_ofTemplate call m.2.2) uniform_defaultOperators

end Registry

namespace Compiler

open Lowering (Action Alike)

variable {target target' : Option Action} {operands operands' : List Action}

/-! ## Operands, plans and functions -/

/-- Targets that are alike make alike terms, or none on both sides. -/
theorem targetTerm_alike (h : Option.Rel (Action.Alike σ caches escapes) target target') :
    Alike σ caches escapes (targetTerm target) (targetTerm target') := by
  cases h with
  | none => exact .pure none
  | some haction => exact (haction .operand).bind fun t => .pure (some t)

/-- Operands that are alike one by one are alike in their order. -/
theorem operandTerms_alike (h : List.Forall₂ (Action.Alike σ caches escapes) operands operands')
    (position : Position) :
    Alike σ caches escapes (operandTerms position operands) (operandTerms position operands') := by
  induction h with
  | nil => exact .pure []
  | cons hfirst _ ih =>
    exact (hfirst position).bind fun t => ih.bind fun ts => .pure (t :: ts)

/-- A plan without literals of values only compiles operands, so `runPlan` is alike where they
    are. -/
theorem runPlan_alike (c c' : Compiler) {carried : Datum → Prop} {t o : Bool} {given : List Term}
    {plan : Plan} (hplan : plan.Linear carried (fun _ => False) t o given)
    (htarget : Option.Rel (Action.Alike σ caches escapes) target target')
    (hoperands : List.Forall₂ (Action.Alike σ caches escapes) operands operands') :
    Alike σ caches escapes (c.runPlan target operands plan)
      (c'.runPlan target' operands' plan) := by
  induction hplan with
  | done => exact .pure _
  | fail error => exact .throw fun _ => rfl
  | target _ ih => exact (targetTerm_alike htarget).bind ih
  | operands _ ih => exact (operandTerms_alike hoperands _).bind ih
  | literal hvalue => exact hvalue.elim
  -- How deep the scope is does not depend on the names in it.
  | depth _ ih =>
    refine .get_bind fun scope _ _ => ?_
    rw [Scope.depth_rename]
    exact ih scope.depth

/-- Filling in a template is alike where the target and the operands are. -/
theorem fillIn_alike (template : Template)
    (htarget : Option.Rel (Action.Alike σ caches escapes) target target')
    (hoperands : List.Forall₂ (Action.Alike σ caches escapes) operands operands') :
    Alike σ caches escapes (fillIn template target operands)
      (fillIn template target' operands') :=
  (targetTerm_alike htarget).bind fun _ =>
    (operandTerms_alike hoperands .operand).bind fun _ => .ofExcept (.refl _)

/-- Functions with bodies that are alike are alike: `Scope.bind` binds the same slots on both sides,
    and `unbind` leaves the scope as it was found. -/
theorem compileFunction_alike (hσ : Function.Injective σ) (params : List Parameter)
    {body body' : Action} (h : body.Alike σ caches escapes body') :
    Alike σ caches escapes (compileFunction params body)
      (compileFunction (params.map (Parameter.rename σ)) body') := by
  intro scope cache cache' hcaches
  have hbound := Scope.bind_rename hσ scope params
  generalize hbind' : (scope.rename σ).bind (params.map (Parameter.rename σ)) = bound' at hbound
  rcases hbind : scope.bind params with e | ⟨slots, inner⟩
  · -- A name that is bound twice is so under the new names too, since `σ` is injective.
    rw [hbind] at hbound
    cases hbound with
    | error he =>
      rw [run_compileFunction_of_error hbind, run_compileFunction_of_error hbind']
      exact .same (.error he) hcaches
  · rw [hbind] at hbound
    cases hbound with
    | ok =>
      -- Both bodies start in the inner scope, and both runs end in the scope before it.
      have hends := h .body inner cache cache' hcaches
      rcases hbody : (body .body).run ⟨inner, cache⟩ with ⟨result, after⟩
      rcases hbody' : (body' .body).run ⟨inner.rename σ, cache'⟩ with ⟨result', after'⟩
      rw [hbody, hbody'] at hends
      rw [run_compileFunction hbind hbody, run_compileFunction hbind' hbody']
      cases hends with
      | escaped he => exact .escaped he
      | same hresult hafter =>
        rw [List.length_map, Scope.unbind_rename]
        exact .same (hresult.map _) hafter

/-! ## Compilers -/

/-- Two compilers with one registry, without literals of values in its plans and without a look at
    the names of parameters, that look converters up alike for the expressions in `known`. The first
    one may refuse to evaluate on the client where that error `escapes`. -/
structure Matches (σ : String → String) (caches : ConverterCache → ConverterCache → Prop)
    (escapes : Error → Prop) (known : Expr → Prop) (c c' : Compiler) : Prop where
  injective : Function.Injective σ
  registry : c'.registry = c.registry
  linear : c.registry.Linear (fun _ => True) fun _ => False
  uniform : c.registry.Every (Override.Uniform σ) fun _ => True
  folding : c'.engine.settings.clientEvaluation = c.engine.settings.clientEvaluation ∨
    c.engine.settings.clientEvaluation = false ∧ ∀ e, known e → e.firstParameter = none →
      escapes (.compilation (.foldingDisabled e.text))
  encode : ∀ e v, known e → e.evaluate = .ok v →
    (c.engine.encode e.type v).Alike caches (c'.engine.encode e.type v)
  wireName : ∀ e name, known e →
    Alike σ caches escapes (c.wireName? e.type name) (c'.wireName? e.type name)
  fieldName : ∀ e name, known e →
    (c.engine.fieldName e.type name).Alike caches (c'.engine.fieldName e.type name)

variable {known : Expr → Prop} {c c' : Compiler}

/-- The document name of a member is found alike where the converter of its type is, or of the type
    in an option. -/
theorem wireName?_alike {type : Ty} (h : ∀ t, type = t ∨ type = .option t →
      (c.engine.resolve t).Alike caches (c'.engine.resolve t)) (name : String) :
    Alike σ caches escapes (c.wireName? type name) (c'.wireName? type name) := by
  cases type with
  | option inner =>
    exact (Alike.ofSession (h inner (.inr rfl))).bind fun converter => .pure _
  | _ => exact (Alike.ofSession (h _ (.inl rfl))).bind fun converter => .pure _

namespace Matches

variable {e : Expr}

/-- The value of a known expression becomes the same literal, as both engines encode it alike. -/
theorem literal_alike (h : c.Matches σ caches escapes known c') (he : known e) {value : Value}
    (hvalue : e.evaluate = .ok value) :
    Alike σ caches escapes (c.literal value e.type) (c'.literal value e.type) :=
  (Alike.ofSession (h.encode e value he hvalue)).bind fun d => .pure (Term.literal d)

/-- A known expression is evaluated alike by `fold`, unless the first compiler refuses to. -/
theorem fold_alike (h : c.Matches σ caches escapes known c') (he : known e) :
    Alike σ caches escapes (c.fold e) (c'.fold (e.rename σ)) := by
  unfold fold
  rw [Expr.firstParameter_rename h.injective]
  cases hfirst : e.firstParameter with
  -- A parameter is left over, and the error names it, under its own name on each side.
  | some p =>
    refine .throw fun hid => ?_
    rw [hid, Expr.rename_id, Parameter.rename_id]
    rfl
  | none =>
    simp only [Option.map_none, Expr.evaluate_rename hfirst, Expr.type_rename]
    by_cases hsettings :
      c'.engine.settings.clientEvaluation = c.engine.settings.clientEvaluation
    · rw [hsettings]
      split
      · exact .throw_rename (fun e => .compilation (.foldingDisabled e.text)) e
      · cases hvalue : e.evaluate with
        | error error => exact .throw fun _ => rfl
        | ok value => exact h.literal_alike he hvalue
    · -- The settings differ only where the first compiler refuses.
      obtain ⟨hstrict, hescapes⟩ := h.folding.resolve_left hsettings
      rw [hstrict]
      exact .escape (hescapes e he hfirst) _

/-- A binary operation is compiled alike, by the override that both registries have or as a node. -/
theorem compileBinary_alike (h : c.Matches σ caches escapes known c') (op : BinaryOp)
    (left right : Expr) {l l' r r' : Action} (hl : l.Alike σ caches escapes l')
    (hr : r.Alike σ caches escapes r') :
    Alike σ caches escapes (c.compileBinary op left right l r)
      (c'.compileBinary op (left.rename σ) (right.rename σ) l' r') := by
  unfold compileBinary
  rw [h.registry, Expr.type_rename, Expr.type_rename]
  -- Which override is found depends on the types of the operands, and these do not change.
  cases hfound : c.registry.binary? left.type.key right.type.key op with
  | some o =>
    have hplan : o.plan (some (left.rename σ)) [right.rename σ] = o.plan (some left) [right] :=
      h.uniform.of_binary? hfound (some left) [right]
    dsimp only
    rw [hplan]
    exact runPlan_alike c c' (h.linear.of_binary? hfound (some left) [right]) (.some hl)
      (.cons hr .nil)
  | none =>
    exact (hl .operand).bind fun t => (hr .operand).bind fun u => .pure _

/-- A unary operation is compiled alike, by the override that both registries have or as a node. -/
theorem compileUnary_alike (h : c.Matches σ caches escapes known c') (op : UnaryOp)
    (operand : Expr) {action action' : Action} (haction : action.Alike σ caches escapes action') :
    Alike σ caches escapes (c.compileUnary op operand action)
      (c'.compileUnary op (operand.rename σ) action') := by
  unfold compileUnary
  rw [h.registry, Expr.type_rename]
  -- An override plans the same for the renamed operand, as the registry is uniform.
  cases hfound : c.registry.unary? operand.type.key op with
  | some o =>
    have hplan : o.plan (some (operand.rename σ)) [] = o.plan (some operand) [] :=
      h.uniform.of_unary? hfound (some operand) []
    dsimp only
    rw [hplan]
    exact runPlan_alike c c' (h.linear.of_unary? hfound (some operand) []) (.some haction) .nil
  | none => exact (haction .operand).bind fun t => .pure _

/-- A field access is compiled alike: what is found of the name decides on both sides between a
    lookup in the document and evaluation on the client. -/
theorem compileField_alike (h : c.Matches σ caches escapes known c') (he : known e)
    (callee : Callee) {object : Option Expr} (hobject : ∀ o ∈ object, known o)
    (htarget : Option.Rel (Action.Alike σ caches escapes) target target') :
    Alike σ caches escapes (c.compileField e callee object target)
      (c'.compileField (e.rename σ) callee (Expr.renameTarget σ object) target') := by
  have hfold := h.fold_alike he
  -- What is no field of an object is evaluated, on both sides.
  cases object with
  | none =>
    cases htarget <;> exact hfold
  | some o =>
    rw [Expr.renameTarget]
    cases htarget with
    -- Constants are evaluated on the client, and so is everything without a document name.
    | none =>
      cases o <;> rw [Expr.rename] <;> exact hfold
    -- The name asked for is that of the same type, since renaming keeps types.
    | @some action action' haction =>
      have hname : Alike σ caches escapes (c.wireName? o.type callee.name)
          (c'.wireName? (o.rename σ).type callee.name) := by
        rw [Expr.type_rename]
        exact h.wireName o callee.name (hobject o rfl)
      cases o with
      | constant value type =>
        rw [Expr.rename]
        exact hfold
      -- An object is compiled, and the name it has in documents, if any, decides what becomes of
      -- the field.
      | _ =>
        rw [Expr.rename] at hname ⊢
        refine hname.bind fun name => ?_
        cases name with
        | none => exact hfold
        | some name => exact (haction .operand).bind fun t => .pure _

/-- A member is compiled alike, by an override, by a template or as a field. -/
theorem compileMember_alike (h : c.Matches σ caches escapes known c') (he : known e)
    (callee : Callee) {object : Option Expr} (hobject : ∀ o ∈ object, known o)
    (htarget : Option.Rel (Action.Alike σ caches escapes) target target') :
    Alike σ caches escapes (c.compileMember e callee object target)
      (c'.compileMember (e.rename σ) callee (Expr.renameTarget σ object) target') := by
  unfold compileMember
  -- Both compilers look the member up in the same registry.
  rw [h.registry]
  cases hfound : c.registry.member? callee.owner.key callee.name with
  | some o =>
    -- A uniform override plans the same for both objects.
    have hplan : o.plan (Expr.renameTarget σ object) [] = o.plan object [] := by
      rw [Expr.renameTarget_eq_map]
      exact h.uniform.of_member? hfound object []
    dsimp only
    rw [hplan]
    exact runPlan_alike c c' (h.linear.of_member? hfound object []) htarget .nil
  | none =>
    dsimp only
    -- Without override a template comes before the field.
    split
    · exact fillIn_alike _ htarget .nil
    · exact h.compileField_alike he callee hobject htarget

/-- The number of operands is refused alike; the error shows the expression as it is named. -/
theorem checkArity_alike (template : Template) (e : Expr) (given : Nat) :
    AnswersAlike σ (template.checkArity e.text given)
      (template.checkArity (e.rename σ).text given) := by
  unfold Template.checkArity
  split
  · exact .ok ()
  · refine .error fun hid => ?_
    rw [hid, Expr.rename_id]

/-- A call is compiled alike, by an override, by a template or on the client. -/
theorem compileCall_alike (h : c.Matches σ caches escapes known c') (he : known e)
    (callee : Callee) (object : Option Expr) (args : List Expr)
    (htarget : Option.Rel (Action.Alike σ caches escapes) target target')
    (hoperands : List.Forall₂ (Action.Alike σ caches escapes) operands operands') :
    Alike σ caches escapes (c.compileCall e callee object args target operands)
      (c'.compileCall (e.rename σ) callee (Expr.renameTarget σ object) (Expr.renameAll σ args)
        target' operands') := by
  -- Overrides of calls may go by the type of the first argument, which is the same.
  have hkey : ((args.map (Expr.rename σ)).head?.map fun arg => arg.type.key) =
      args.head?.map fun arg => arg.type.key := by
    rw [List.head?_map, Option.map_map]
    exact congrArg (args.head?.map ·) (funext fun arg => congrArg Ty.key (Expr.type_rename arg))
  unfold compileCall
  rw [h.registry, Expr.renameTarget_eq_map, Expr.renameAll_eq_map, hkey, List.length_map]
  cases hfound : c.registry.method? callee.owner.key callee.name with
  | some o =>
    dsimp only
    rw [h.uniform.of_method? hfound object args]
    exact runPlan_alike c c' (h.linear.of_method? hfound object args) htarget hoperands
  | none =>
    dsimp only
    split
    · exact (Alike.ofExcept (checkArity_alike _ e _)).bind fun _ =>
        fillIn_alike _ htarget hoperands
    · exact h.fold_alike he

/-- A construction is compiled alike, by an override or on the client. -/
theorem compileConstruct_alike (h : c.Matches σ caches escapes known c') (he : known e)
    (callee : Callee) (args : List Expr)
    (hoperands : List.Forall₂ (Action.Alike σ caches escapes) operands operands') :
    Alike σ caches escapes (c.compileConstruct e callee args operands)
      (c'.compileConstruct (e.rename σ) callee (Expr.renameAll σ args) operands') := by
  unfold compileConstruct
  rw [h.registry, Expr.renameAll_eq_map]
  -- Without a constructor in the registry the client evaluates the expression.
  cases hfound : c.registry.constructor? callee.type.key callee.name with
  | some o =>
    have hplan : o.plan none (args.map (Expr.rename σ)) = o.plan none args :=
      h.uniform.of_constructor? hfound none args
    dsimp only
    rw [hplan]
    exact runPlan_alike c c' (h.linear.of_constructor? hfound none args) .none hoperands
  | none => exact h.fold_alike he

/-- Bindings of one name whose values are compiled alike. -/
abbrev BindingAlike (σ : String → String) (caches : ConverterCache → ConverterCache → Prop)
    (escapes : Error → Prop) (b b' : String × Action) : Prop :=
  b.1 = b'.1 ∧ b.2.Alike σ caches escapes b'.2

/-- The bindings of a record are compiled alike, each after its document name was found alike. -/
theorem compileBindings_alike (h : c.Matches σ caches escapes known c') (he : known e)
    {bindings bindings' : List (String × Action)}
    (hbindings : List.Forall₂ (BindingAlike σ caches escapes) bindings bindings') :
    Alike σ caches escapes (c.compileBindings e e.type bindings)
      (c'.compileBindings (e.rename σ) e.type bindings') := by
  induction hbindings with
  | nil => exact .pure []
  | @cons b b' _ _ hfirst _ ih =>
    obtain ⟨name, action⟩ := b
    obtain ⟨name', action'⟩ := b'
    obtain ⟨rfl, haction⟩ := hfirst
    refine (Alike.attempt_ofSession (h.fieldName e name he)).bind fun result => ?_
    cases result with
    -- That there is no such field is reported with the expression, which has new names.
    | error error =>
      exact .throw_rename (fun e => .compilation (.fieldName e.text error.message)) e
    | ok wireName =>
      exact (haction .body).bind fun value => ih.bind fun members => .pure _

end Matches

/-- The same conversions of parameters are refused. -/
theorem checkConversion_alike (operand : Expr) (type : Ty) :
    AnswersAlike σ (checkConversion operand type) (checkConversion (operand.rename σ) type) := by
  -- Only a parameter without the type in question is refused, and the error names it.
  cases operand with
  | parameter p =>
    rw [Expr.rename]
    show AnswersAlike σ (if type.isAssignableFrom p.type then _ else _)
      (if type.isAssignableFrom p.type then _ else _)
    split
    · exact .ok ()
    · -- The errors may differ where names do; where they do not, they are the same.
      refine .error fun hid => ?_
      rw [hid, Parameter.rename_id]
      rfl
  | _ =>
    rw [Expr.rename]
    exact .ok ()

/-! ## Expressions -/

mutual

/-- Compilers in `Matches` compile expressions of known parts alike. The actions of the parts are
    alike by induction, and each kind of node puts them together. -/
theorem lower_alike (h : c.Matches σ caches escapes known c') :
    ∀ e : Expr, Everywhere Expr.parts known e →
      Action.Alike σ caches escapes (lower c e) (lower c' (e.rename σ))
  | .constant value type, he, _ => by
    rw [Expr.rename, lower, lower]
    exact h.literal_alike he.at_top (by rw [Expr.evaluate])
  | .parameter p, _, _ => by
    rw [Expr.rename, lower, lower]
    -- The slot of a parameter is found under its new name where it was found under the old one.
    refine .get_bind fun scope _ _ => ?_
    exact (Alike.ofExcept (Scope.slotOf_rename h.injective scope p)).bind fun slot => .pure _
  -- Operators are compiled from their operands, in a way that does not look at parameters.
  | .binary op left right, he, _ => by
    rw [Expr.rename, lower, lower]
    exact h.compileBinary_alike op left right (lower_alike h left (he.at_part (.head _)))
      (lower_alike h right (he.at_part (.tail _ (.head _))))
  | .unary op operand, he, _ => by
    rw [Expr.rename, lower, lower]
    exact h.compileUnary_alike op operand (lower_alike h operand (he.at_part (.head _)))
  | .member target callee, he, _ => by
    -- A target, where there is one, is a part of the expression.
    have hparts : ∀ e ∈ target, Everywhere Expr.parts known e :=
      fun e h => he.at_part (Option.mem_toList.mpr h)
    have hmember := h.compileMember_alike he.at_top callee
      (fun e h => (hparts e h).at_top) (lowerTarget_alike h target hparts)
    rw [Expr.rename] at hmember ⊢
    rw [lower, lower]
    exact hmember
  | .call target callee args, he, _ => by
    have hcall := h.compileCall_alike he.at_top callee target args
      (lowerTarget_alike h target fun e h =>
        he.at_part (List.mem_append_left _ (Option.mem_toList.mpr h)))
      (lowerAll_alike h args fun e h => he.at_part (List.mem_append_right _ h))
    rw [Expr.rename] at hcall ⊢
    rw [lower, lower]
    exact hcall
  | .construct callee args, he, _ => by
    have hconstruct := h.compileConstruct_alike he.at_top callee args
      (lowerAll_alike h args fun e h => he.at_part h)
    rw [Expr.rename] at hconstruct ⊢
    rw [lower, lower]
    exact hconstruct
  -- In a body the members are compiled one by one; elsewhere the record is evaluated.
  | .recordInit type bindings, he, position => by
    have hbindings := h.compileBindings_alike he.at_top
      (lowerBindings_alike h bindings fun b hb => he.at_part (List.mem_map_of_mem hb))
    have hfold := h.fold_alike he.at_top
    rw [Expr.rename] at hbindings hfold ⊢
    rw [lower, lower]
    split
    · exact hbindings.bind fun members => .pure _
    · exact hfold
  | .array _ items, he, _ => by
    rw [Expr.rename, lower, lower]
    have hitems := lowerAll_alike h items fun e h => he.at_part h
    exact (operandTerms_alike hitems .operand).bind fun items => .pure _
  | .conditional test ifTrue ifFalse, he, _ => by
    -- The three parts are compiled in their order, the branches as bodies.
    rw [Expr.rename, lower, lower]
    have htest := lower_alike h test (he.at_part (.head _))
    have hifTrue := lower_alike h ifTrue (he.at_part (.tail _ (.head _)))
    have hifFalse := lower_alike h ifFalse (he.at_part (.tail _ (.tail _ (.head _))))
    exact (htest .operand).bind fun t => (hifTrue .body).bind fun u =>
      (hifFalse .body).bind fun v => .pure _
  | .convert operand type, he, position => by
    rw [Expr.rename, lower, lower]
    have hoperand := lower_alike h operand (he.at_part (.head _))
    exact (Alike.ofExcept (checkConversion_alike operand type)).bind fun _ => hoperand position
  | .lambda params body, he, _ => by
    rw [Expr.rename, lower, lower]
    exact compileFunction_alike h.injective params (lower_alike h body (he.at_part (.head _)))

/-- The target of a member or call is compiled alike, or there is none on both sides. -/
theorem lowerTarget_alike (h : c.Matches σ caches escapes known c') :
    ∀ target : Option Expr, (∀ e ∈ target, Everywhere Expr.parts known e) →
      Option.Rel (Action.Alike σ caches escapes) (lowerTarget c target)
        (lowerTarget c' (Expr.renameTarget σ target))
  | none, _ => by
    rw [Expr.renameTarget, lowerTarget, lowerTarget]
    exact .none
  | some target, he => by
    rw [Expr.renameTarget, lowerTarget, lowerTarget]
    exact .some (lower_alike h target (he target rfl))

/-- Operands are compiled alike one by one. -/
theorem lowerAll_alike (h : c.Matches σ caches escapes known c') :
    ∀ es : List Expr, (∀ e ∈ es, Everywhere Expr.parts known e) →
      List.Forall₂ (Action.Alike σ caches escapes) (lowerAll c es)
        (lowerAll c' (Expr.renameAll σ es))
  | [], _ => by
    rw [Expr.renameAll, lowerAll, lowerAll]
    exact .nil
  | e :: rest, he => by
    rw [Expr.renameAll, lowerAll, lowerAll]
    exact .cons (lower_alike h e (he e (.head _)))
      (lowerAll_alike h rest fun e h => he e (.tail _ h))

/-- Bindings are compiled alike one by one, under the same names. -/
theorem lowerBindings_alike (h : c.Matches σ caches escapes known c') :
    ∀ bindings : List (String × Expr), (∀ b ∈ bindings, Everywhere Expr.parts known b.2) →
      List.Forall₂ (Matches.BindingAlike σ caches escapes) (lowerBindings c bindings)
        (lowerBindings c' (Expr.renameBindings σ bindings))
  | [], _ => by
    rw [Expr.renameBindings, lowerBindings, lowerBindings]
    exact .nil
  | (name, e) :: rest, he => by
    rw [Expr.renameBindings, lowerBindings, lowerBindings]
    exact .cons ⟨rfl, lower_alike h e (he (name, e) (.head _))⟩
      (lowerBindings_alike h rest fun b h => he b (.tail _ h))

end

end Compiler

end DocQuery
