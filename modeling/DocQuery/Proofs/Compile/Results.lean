import DocQuery.Proofs.Compile.Linear
import DocQuery.Proofs.Expr.Evaluate

/-!
# What compiled terms have in common

A compilation puts terms together from literals, references to slots and functions of slots. What
literals and references have, and what every other node has when its parts do, is true of whatever
is compiled, as long as the functions of an expression have it too. Such a property is followed
through the compiler here, without a look at slots: only the terms count.

## Key results

- `Lowering.Gives.bind`: a property of the results of steps, composed as the steps are
- `Term.Inherited.instantiate`: what the target and the arguments have, a filled in template has
- `Compiler.lower_gives`: compiled terms have what is inherited, by induction on the expression
-/

namespace DocQuery

/-! ## Results of steps -/

namespace Lowering

variable {α β : Type}

/-- Whatever was compiled before, a result of the step has the property. -/
def Gives (holds : α → Prop) (step : Lowering α) : Prop :=
  ∀ before a, (step.run before).1 = .ok a → holds a

namespace Gives

variable {holds : α → Prop} {holds' : β → Prop}

/-- A step that does nothing but end with `a` gives what holds of `a`. -/
theorem pure {a : α} (h : holds a) : Gives holds (Pure.pure a) := by
  intro before a' ha'
  obtain rfl := Except.ok.inj ha'
  exact h

theorem throw (e : Error) : Gives holds (MonadExcept.throw e : Lowering α) :=
  fun _ _ ha => by cases ha

/-- The second step may count on what the first one gives. -/
theorem bind {step : Lowering α} {f : α → Lowering β} (h : Gives holds step)
    (hf : ∀ a, holds a → Gives holds' (f a)) : Gives holds' (step >>= f) := by
  intro before b hb
  rcases hrun : step.run before with ⟨e | a, middle⟩
  · -- An error of the first step is the end, and leaves nothing to show.
    rw [run_bind_error hrun] at hb
    cases hb
  · rw [run_bind_ok hrun] at hb
    have ha : (step.run before).1 = .ok a := by rw [hrun]
    exact hf a (h before a ha) middle b hb

theorem get_bind {f : CompileState → Lowering α} (h : ∀ state, Gives holds (f state)) :
    Gives holds (get >>= f) :=
  fun before a ha => h before before a ha

/-- Of some steps nothing needs to be known. -/
theorem anything (step : Lowering α) : Gives (fun _ => True) step := fun _ _ _ => trivial

/-- A computation without effects gives what holds of its result. -/
theorem ofExcept {result : Except Error α} (h : ∀ a, result = .ok a → holds a) :
    Gives holds (MonadExcept.ofExcept result) := by
  cases result with
  | ok a => exact .pure (h a rfl)
  | error e => exact .throw e

end Gives

/-- Wherever the action is run, the term that it gives has the property. -/
def Action.Gives (good : Term → Prop) (action : Action) : Prop :=
  ∀ position, Lowering.Gives good (action position)

end Lowering

/-! ## Terms and templates -/

namespace Term

/-- A property that literals and references have, and every node that is `plain`, and so no
    function, when its parts have it. -/
structure Inherited (good : Term → Prop) : Prop where
  literal : ∀ d, good (literal d)
  var : ∀ n, good (var n)
  node : ∀ t : Term, t.kind.plain = true → (∀ part ∈ t.parts, good part) → good t

namespace Inherited

variable {good : Term → Prop}

theorem args (h : Inherited good) {kind : TermKind} (hkind : kind.plain = true) {args : List Term}
    (hargs : ∀ t ∈ args, good t) : good (Term.node kind args) := by
  have hparts : (Term.node kind args).parts = args := List.append_nil args
  exact h.node _ hkind (hparts.symm ▸ hargs)

/-- The options of a term come from what was put together by `Members.ofList`, which drops some of
    them. -/
theorem mk_ofList (h : Inherited good) {kind : TermKind} (hkind : kind.plain = true)
    {args : List Term} (hargs : ∀ t ∈ args, good t) {options : List (String × Term)}
    (hoptions : ∀ o ∈ options, good o.2) :
    good (Term.mk kind args (Members.ofList options) none) := by
  refine h.node _ hkind fun part hpart => ?_
  rcases List.mem_append.mp hpart with hpart | hpart
  · exact hargs part hpart
  · obtain ⟨o, ho, rfl⟩ :=
      List.mem_map.mp ((Members.values_ofList_subperm options).subset hpart)
    exact hoptions o ho

variable {receiver : Option Term} {args : List Term}

open Template (Built BuiltArgs BuiltOptions instantiateAll instantiateOptions)

mutual

/-- What the target and the arguments have, a template that is filled in by `instantiate` has. The
    four cases are the places, the literals and the nodes of templates. -/
theorem instantiate (h : Inherited good) (hreceiver : ∀ t ∈ receiver, good t)
    (hargs : ∀ t ∈ args, good t) : ∀ {t : Template} {term : Term}, t.Built (fun _ => True) →
    t.instantiate receiver args = .ok term → good term
  -- By the recursion of `instantiate`. A place gives the term that it stands for.
  | .target, term, _, hterm => by
    unfold Template.instantiate at hterm
    split at hterm
    · obtain rfl := Except.ok.inj hterm
      exact hreceiver _ rfl
    · cases hterm
  | .argument position, term, _, hterm => by
    unfold Template.instantiate at hterm
    split at hterm
    · rename_i t hfound
      obtain rfl := Except.ok.inj hterm
      exact hargs t (List.mem_of_getElem? hfound)
    · cases hterm
  | .literal datum, term, _, hterm => by
    obtain rfl := Except.ok.inj hterm
    exact h.literal datum
  -- A node is built from its children and options, which are instantiated first.
  | .node kind children options, term, hbuilt, hterm => by
    obtain ⟨hkind, -, hchildren, hoptions⟩ := hbuilt
    obtain ⟨terms, hterms, hterm⟩ := Sequence.exists_of_bind_eq_ok hterm
    obtain ⟨members, hmembers, hterm⟩ := Sequence.exists_of_bind_eq_ok hterm
    obtain rfl := Except.ok.inj hterm
    exact h.mk_ofList hkind (instantiateAll_forall h hreceiver hargs hchildren hterms)
      (instantiateOptions_forall h hreceiver hargs hoptions hmembers)

/-- What the target and the arguments have, all arguments of a node have. -/
theorem instantiateAll_forall (h : Inherited good) (hreceiver : ∀ t ∈ receiver, good t)
    (hargs : ∀ t ∈ args, good t) : ∀ {ts : List Template} {terms : List Term},
    BuiltArgs (fun _ => True) ts → instantiateAll receiver args ts = .ok terms →
    ∀ t ∈ terms, good t
  | [], _, _, hterms => by
    obtain rfl := Except.ok.inj hterms
    exact List.forall_mem_nil _
  | t :: rest, _, hbuilt, hterms => by
    -- The results are the front term and those of the rest.
    obtain ⟨term, hterm, hterms⟩ := Sequence.exists_of_bind_eq_ok hterms
    obtain ⟨others, hothers, hterms⟩ := Sequence.exists_of_bind_eq_ok hterms
    obtain rfl := Except.ok.inj hterms
    rw [List.forall_mem_cons]
    exact ⟨instantiate h hreceiver hargs hbuilt.1 hterm,
      instantiateAll_forall h hreceiver hargs hbuilt.2 hothers⟩

/-- What the target and the arguments have, all options of a node have. -/
theorem instantiateOptions_forall (h : Inherited good) (hreceiver : ∀ t ∈ receiver, good t)
    (hargs : ∀ t ∈ args, good t) : ∀ {options : List (String × Template)}
    {members : List (String × Term)}, BuiltOptions (fun _ => True) options →
    instantiateOptions receiver args options = .ok members → ∀ m ∈ members, good m.2
  | [], _, _, hmembers => by
    obtain rfl := Except.ok.inj hmembers
    exact List.forall_mem_nil _
  | (name, t) :: rest, _, hbuilt, hmembers => by
    -- An option has the term of its template.
    obtain ⟨term, hterm, hmembers⟩ := Sequence.exists_of_bind_eq_ok hmembers
    obtain ⟨others, hothers, hmembers⟩ := Sequence.exists_of_bind_eq_ok hmembers
    obtain rfl := Except.ok.inj hmembers
    rw [List.forall_mem_cons]
    exact ⟨instantiate h hreceiver hargs hbuilt.1 hterm,
      instantiateOptions_forall h hreceiver hargs hbuilt.2 hothers⟩

end

end Inherited

end Term

/-! ## Plans and overrides -/

/-- The plan ends with a term that has the property when all that it compiles has it. -/
inductive Plan.Gives (good : Term → Prop) : Plan → Prop where
  | done {term : Term} (h : good term) : Gives good (.done term)
  | fail (error : Error) : Gives good (.fail error)
  | target {next : Option Term → Plan} (h : ∀ t : Option Term, (∀ u ∈ t, good u) →
    Gives good (next t)) : Gives good (.target next)
  | operands {position : Position} {next : List Term → Plan} (h : ∀ ts : List Term,
    (∀ u ∈ ts, good u) → Gives good (next ts)) : Gives good (.operands position next)
  | literal {value : Value} {type : Ty} {next : Term → Plan} (h : ∀ t, good t →
    Gives good (next t)) : Gives good (.literal value type next)
  | depth {next : Nat → Plan} (h : ∀ depth, Gives good (next depth)) : Gives good (.depth next)

variable {good : Term → Prop}

/-- A template is filled in at the end of a plan, with what was compiled before. -/
theorem Plan.Gives.instantiate (hgood : Term.Inherited good) {template : Template}
    (hbuilt : template.Built fun _ => True) {receiver : Option Term} {args : List Term}
    (hreceiver : ∀ t ∈ receiver, good t) (hargs : ∀ t ∈ args, good t) :
    Plan.Gives good (.ofExcept (template.instantiate receiver args)) := by
  cases h : template.instantiate receiver args with
  | ok term => exact .done (hgood.instantiate hreceiver hargs hbuilt h)
  | error e => exact .fail e

namespace Override

/-- The plans of the override end with terms that have the property. -/
def Gives (good : Term → Prop) (o : Override) : Prop :=
  ∀ target operands, (o.plan target operands).Gives good

variable (hgood : Term.Inherited good)
include hgood

/-- The override `accessor` gives a node of its target. -/
theorem gives_accessor {kind : TermKind} (hkind : kind.plain = true) :
    (accessor kind).Gives good := by
  intro target operands
  have hbuilt : (Template.ofTarget kind).Built fun _ => True :=
    ⟨hkind, fun _ => rfl, ⟨trivial, trivial⟩, trivial⟩
  cases target with
  | none => exact .fail _
  | some e => exact .target fun t ht => .instantiate hgood hbuilt ht (List.forall_mem_nil _)

/-- The override `receiver` gives its target. -/
theorem gives_receiver (name : String) : (receiver name).Gives good := by
  intro target operands
  cases target with
  | none => exact .fail _
  | some e =>
    have hbuilt : Template.target.Built fun _ => True := trivial
    exact .target fun t ht => .instantiate hgood hbuilt ht (List.forall_mem_nil _)

/-- The override `nodeOf` gives a node of its target and its operands. -/
theorem gives_nodeOf {kind : TermKind} (hkind : kind.plain = true) : (nodeOf kind).Gives good := by
  refine fun _ _ => .target fun t ht => .operands fun ts hts => .done (hgood.args hkind ?_)
  intro u hu
  rcases List.mem_append.mp hu with hu | hu
  · exact ht u (Option.mem_toList.mp hu)
  · exact hts u hu

/-- The override `ofTemplate` gives its template filled in with operands. -/
theorem gives_ofTemplate {call : String} {template : Template}
    (hbuilt : template.Built fun _ => True) : (ofTemplate call template).Gives good := by
  intro target operands
  unfold ofTemplate
  dsimp only
  split
  · exact .fail _
  · exact .operands fun ts hts => .instantiate hgood hbuilt (fun _ h => by cases h) hts

end Override

namespace Registry

/-- Every override gives terms with the property, and no template has functions of its own. -/
abbrev Gives (good : Term → Prop) : Registry → Prop :=
  Every (Override.Gives good) (Template.Built fun _ => True)

/-- The default registrations give terms with every property that is `Inherited`. -/
theorem gives_defaults (hgood : Term.Inherited good) : defaults.Gives good := by
  refine .defaults (fun m hm => ?_)
    (fun m hm => (linear_defaultTemplates Datum.constants_true m hm).built)
    (fun m hm _ => Override.gives_ofTemplate hgood
      (linear_defaultConstructors Datum.constants_true m hm).built) ?_
  · -- That the templates are built without functions is part of their being linear.
    have haccessors : ∀ m ∈ timeAccessors, m.2.plain = true := by decide
    rcases List.mem_append.mp hm with hm | hm
    · obtain ⟨owner, -, hm⟩ := List.mem_flatMap.mp hm
      obtain ⟨accessor, haccessor, rfl⟩ := List.mem_map.mp hm
      exact Override.gives_accessor hgood (haccessors accessor haccessor)
    · obtain rfl := List.mem_singleton.mp hm
      exact Override.gives_receiver hgood _
  · simp only [defaultOperators, List.forall_mem_cons]
    exact ⟨Override.gives_nodeOf hgood rfl, Override.gives_nodeOf hgood rfl,
      Override.gives_nodeOf hgood rfl, List.forall_mem_nil _⟩

/-- The registries `empty` and `defaults` add no functions. -/
theorem gives_of_eq {r : Registry} (h : r = .empty ∨ r = .defaults)
    (hgood : Term.Inherited good) : r.Gives good := by
  rcases h with rfl | rfl
  · exact .empty
  · exact gives_defaults hgood

end Registry

/-! ## Nodes -/

namespace Compiler

open Lowering (Action Gives)

variable {c : Compiler} {target : Option Action} {operands : List Action}

/-- A target gives a term with the property, where there is one. -/
theorem targetTerm_gives (h : ∀ action ∈ target, action.Gives good) :
    Gives (fun t => ∀ u ∈ t, good u) (targetTerm target) := by
  cases target with
  | none => exact .pure fun _ hu => by cases hu
  | some action =>
    refine (h action rfl .operand).bind fun t ht => .pure ?_
    rintro _ ⟨⟩
    exact ht

/-- Operands give terms that all have the property. -/
theorem operandTerms_gives (h : ∀ action ∈ operands, action.Gives good) (position : Position) :
    Gives (fun ts => ∀ u ∈ ts, good u) (operandTerms position operands) := by
  induction operands with
  | nil => exact .pure (List.forall_mem_nil _)
  | cons action rest ih =>
    rw [List.forall_mem_cons] at h
    refine (h.1 position).bind fun t ht => (ih h.2).bind fun ts hts => .pure ?_
    exact List.forall_mem_cons.mpr ⟨ht, hts⟩

/-- A function whose body has the property is a function of as many slots as parameters. Whether it
    has the property itself is up to the property. -/
theorem compileFunction_gives {params : List Parameter} {body : Action} (hbody : body.Gives good) :
    Gives (fun t => ∃ slots inner, slots.length = params.length ∧ good inner ∧
      t = Term.func slots inner) (compileFunction params body) := by
  intro before t ht
  rcases hbind : before.scope.bind params with e | ⟨slots, scope⟩
  · rw [run_compileFunction_of_error hbind] at ht
    cases ht
  · rw [run_compileFunction hbind rfl] at ht
    obtain ⟨inner, hinner, rfl⟩ := Sequence.exists_of_map_eq_ok ht
    -- The scope hands out one slot for each parameter, from the next one on.
    obtain ⟨rfl, -, -⟩ := Scope.bind_eq_ok hbind
    exact ⟨_, inner, List.length_range', hbody .body _ inner hinner, rfl⟩

variable (hgood : Term.Inherited good)
include hgood

/-- The literal of a value has the property, whatever is written of the value. -/
theorem literal_gives (value : Value) (type : Ty) : Gives good (c.literal value type) :=
  (Gives.anything _).bind fun datum _ => .pure (hgood.literal datum)

/-- What is evaluated on the client becomes a literal, which has the property. -/
theorem fold_gives (e : Expr) : Gives good (c.fold e) := by
  unfold fold
  split
  · exact .throw _
  · split
    · exact .throw _
    · exact (Gives.anything _).bind fun value _ => literal_gives hgood value e.type

/-- A plan gives a term with the property where the target and the operands do. -/
theorem runPlan_gives (htarget : ∀ action ∈ target, action.Gives good)
    (hoperands : ∀ action ∈ operands, action.Gives good) {plan : Plan} (hplan : plan.Gives good) :
    Gives good (c.runPlan target operands plan) := by
  -- On the steps of the plan: each step compiles something that has the property.
  induction hplan with
  | done h => exact .pure h
  | fail error => exact .throw error
  | target _ ih => exact (targetTerm_gives htarget).bind ih
  | operands _ ih => exact (operandTerms_gives hoperands _).bind ih
  | literal _ ih => exact (literal_gives hgood _ _).bind ih
  | depth _ ih => exact .get_bind fun state => ih state.scope.depth

/-- A template that is filled in gives a term with the property where the target and the operands
    do. -/
theorem fillIn_gives (htarget : ∀ action ∈ target, action.Gives good)
    (hoperands : ∀ action ∈ operands, action.Gives good) {template : Template}
    (hbuilt : template.Built fun _ => True) : Gives good (fillIn template target operands) :=
  (targetTerm_gives htarget).bind fun _ ht =>
    (operandTerms_gives hoperands .operand).bind fun _ hts =>
      .ofExcept fun _ hterm => hgood.instantiate ht hts hbuilt hterm

variable (hregistry : c.registry.Gives good)
include hregistry

/-- A binary operation gives a term with the property, by an override or as a node. -/
theorem compileBinary_gives {l r : Action} (hl : l.Gives good) (hr : r.Gives good) (op : BinaryOp)
    (left right : Expr) : Gives good (c.compileBinary op left right l r) := by
  unfold compileBinary
  split
  · rename_i o hfound
    -- The plan may get the action of the left operand as its target.
    have htarget : ∀ action ∈ some l, action.Gives good := by
      rintro _ ⟨⟩
      exact hl
    exact runPlan_gives hgood htarget (List.forall_mem_singleton.mpr hr)
      (hregistry.of_binary? hfound (some left) [right])
  · refine (hl .operand).bind fun t ht => (hr .operand).bind fun u hu => .pure ?_
    -- No operator makes a node of another kind than those for plain arguments.
    have hkind : (operatorKind op).plain = true := by cases op <;> rfl
    exact hgood.args hkind (by simp [ht, hu])

/-- A unary operation gives a term with the property, by an override or as a node. -/
theorem compileUnary_gives {action : Action} (haction : action.Gives good) (op : UnaryOp)
    (operand : Expr) : Gives good (c.compileUnary op operand action) := by
  unfold compileUnary
  split
  · rename_i o hfound
    have htarget : ∀ a ∈ some action, a.Gives good := by
      rintro _ ⟨⟩
      exact haction
    exact runPlan_gives hgood htarget (List.forall_mem_nil _)
      (hregistry.of_unary? hfound (some operand) [])
  · refine (haction .operand).bind fun t ht => .pure ?_
    -- Negation subtracts from a literal zero, and the other two are nodes of the operand.
    cases op with
    | not | length => exact hgood.args rfl (by simp [ht])
    | negate => exact hgood.args rfl (by simp [ht, hgood.literal])

omit hregistry in
/-- A field access gives a term with the property: a node of the target and a name, or a literal. -/
theorem compileField_gives (htarget : ∀ action ∈ target, action.Gives good) (e : Expr)
    (callee : Callee) (object : Option Expr) :
    Gives good (c.compileField e callee object target) := by
  unfold compileField
  -- Without an object, for a constant and without a name in documents the client evaluates.
  split
  · exact fold_gives hgood e
  · exact fold_gives hgood e
  · exact fold_gives hgood e
  · rename_i _ action _
    refine (Gives.anything _).bind fun name _ => ?_
    cases name with
    | none => exact fold_gives hgood e
    | some name =>
      refine (htarget action rfl .operand).bind fun t ht => .pure ?_
      exact hgood.args rfl (by simp [ht, hgood.literal])

/-- A member gives a term with the property, by an override, by a template or as a field access. -/
theorem compileMember_gives (htarget : ∀ action ∈ target, action.Gives good) (e : Expr)
    (callee : Callee) (object : Option Expr) :
    Gives good (c.compileMember e callee object target) := by
  unfold compileMember
  -- First an override, then a template, then the field.
  split
  · rename_i o hfound
    exact runPlan_gives hgood htarget (List.forall_mem_nil _)
      (hregistry.of_member? hfound object [])
  · split
    · rename_i template hfound
      exact fillIn_gives hgood htarget (List.forall_mem_nil _) (hregistry.of_template? hfound)
    · exact compileField_gives hgood htarget e callee object

/-- A call gives a term with the property, by an override, by a template or as a literal. -/
theorem compileCall_gives (htarget : ∀ action ∈ target, action.Gives good)
    (hoperands : ∀ action ∈ operands, action.Gives good) (e : Expr) (callee : Callee)
    (object : Option Expr) (args : List Expr) :
    Gives good (c.compileCall e callee object args target operands) := by
  unfold compileCall
  split
  · rename_i o hfound
    exact runPlan_gives hgood htarget hoperands (hregistry.of_method? hfound object args)
  · dsimp only
    split
    · -- The check of the arity gives no term, so nothing is asked of it.
      rename_i template hfound
      exact (Gives.anything _).bind fun _ _ =>
        fillIn_gives hgood htarget hoperands (hregistry.of_template? hfound)
    · exact fold_gives hgood e

/-- A construction gives a term with the property, by an override or as a literal. -/
theorem compileConstruct_gives (hoperands : ∀ action ∈ operands, action.Gives good) (e : Expr)
    (callee : Callee) (args : List Expr) :
    Gives good (c.compileConstruct e callee args operands) := by
  unfold compileConstruct
  split
  · rename_i o hfound
    exact runPlan_gives hgood (fun _ h => by cases h) hoperands
      (hregistry.of_constructor? hfound none args)
  · exact fold_gives hgood e

omit hgood hregistry in
/-- The fields of a record have the property, under whatever names `compileBindings` puts them. -/
theorem compileBindings_gives {bindings : List (String × Action)}
    (h : ∀ b ∈ bindings, Action.Gives good b.2) (e : Expr) (record : Ty) :
    Gives (fun members => ∀ m ∈ members, good m.2) (c.compileBindings e record bindings) := by
  induction bindings with
  | nil => exact .pure (List.forall_mem_nil _)
  | cons b rest ih =>
    obtain ⟨name, action⟩ := b
    rw [List.forall_mem_cons] at h
    -- The wire name is asked for first, and its error ends the compilation.
    refine (Gives.anything _).bind fun result _ => ?_
    cases result with
    | error error => exact (Gives.throw _)
    | ok wireName =>
      refine (h.1 .body).bind fun value hvalue => (ih h.2).bind fun members hmembers => .pure ?_
      exact List.forall_mem_cons.mpr ⟨hvalue, hmembers⟩

/-! ## Expressions -/

omit hgood hregistry in
/-- The operands of a node are the expressions as `lower` has them, one by one. -/
theorem lowerAll_eq_map (es : List Expr) : lowerAll c es = es.map (lower c) := by
  induction es with
  | nil => rw [lowerAll, List.map_nil]
  | cons e rest ih => rw [lowerAll, ih, List.map_cons]

omit hgood hregistry in
/-- The target of a node is the expression as `lower` has it. -/
theorem lowerTarget_eq_map (target : Option Expr) :
    lowerTarget c target = target.map (lower c) := by
  cases target with
  | none => rw [lowerTarget, Option.map_none]
  | some e => rw [lowerTarget, Option.map_some]

omit hgood hregistry in
/-- The bindings of a record are the expressions as `lower` has them, under the same names. -/
theorem lowerBindings_eq_map (bindings : List (String × Expr)) :
    lowerBindings c bindings = bindings.map fun b => (b.1, lower c b.2) := by
  induction bindings with
  | nil => rw [lowerBindings, List.map_nil]
  | cons b rest ih => rw [lowerBindings, ih, List.map_cons]

/-- What is `Inherited` is true of every term that an expression is compiled to, in any position and
    scope, when it is true of the functions of the expression as soon as it is of their bodies. -/
theorem lower_gives {e : Expr}
    (hfunctions : Everywhere Expr.parts (fun part => ∀ params body, part = .lambda params body →
      ∀ slots inner, slots.length = params.length → good inner → good (Term.func slots inner)) e) :
    Action.Gives good (c.lower e) := by
  -- On the expression: what the actions of the parts give is known, and each kind of node puts
  -- that together.
  induction hfunctions with
  | @intro e hfunction _ ih =>
    intro position
    have htarget {target : Option Expr} (h : ∀ part ∈ target, part ∈ e.parts) :
        ∀ action ∈ lowerTarget c target, action.Gives good := by
      rw [lowerTarget_eq_map]
      intro action haction
      obtain ⟨part, hpart, rfl⟩ := Option.mem_map.mp haction
      exact ih part (h part hpart)
    have hoperands {es : List Expr} (h : ∀ part ∈ es, part ∈ e.parts) :
        ∀ action ∈ lowerAll c es, action.Gives good := by
      rw [lowerAll_eq_map, List.forall_mem_map]
      exact fun part hpart => ih part (h part hpart)
    cases e with
    | constant value type =>
      rw [lower]
      exact literal_gives hgood value type
    | parameter p =>
      rw [lower]
      refine .get_bind fun state => (Gives.anything _).bind fun slot _ => .pure (hgood.var slot)
    | binary op left right =>
      rw [lower]
      exact compileBinary_gives hgood hregistry (ih left (.head _)) (ih right (.tail _ (.head _)))
        op left right
    | unary op operand =>
      rw [lower]
      exact compileUnary_gives hgood hregistry (ih operand (.head _)) op operand
    | member target callee =>
      rw [lower]
      exact compileMember_gives hgood hregistry
        (htarget fun part hpart => Option.mem_toList.mpr hpart) _ callee target
    | call target callee args =>
      rw [lower]
      exact compileCall_gives hgood hregistry
        (htarget fun part hpart => List.mem_append_left _ (Option.mem_toList.mpr hpart))
        (hoperands fun part hpart => List.mem_append_right _ hpart) _ callee target args
    | construct callee args =>
      rw [lower]
      exact compileConstruct_gives hgood hregistry (hoperands fun part hpart => hpart) _ callee args
    | recordInit type bindings =>
      -- In a body the record becomes an object; elsewhere it is evaluated to a literal.
      rw [lower]
      split
      · have hbindings : ∀ b ∈ lowerBindings c bindings, Action.Gives good b.2 := by
          rw [lowerBindings_eq_map, List.forall_mem_map]
          exact fun b hb => ih b.2 (List.mem_map_of_mem hb)
        refine (compileBindings_gives hbindings _ _).bind fun members hmembers => .pure ?_
        have hkind : TermKind.makeObj.plain = true := rfl
        exact hgood.mk_ofList hkind (List.forall_mem_nil _) hmembers
      · exact fold_gives hgood _
    | array element items =>
      rw [lower]
      refine (operandTerms_gives (hoperands fun part hpart => hpart) .operand).bind
        fun terms hterms => .pure (hgood.args rfl hterms)
    | conditional test ifTrue ifFalse =>
      rw [lower]
      refine (ih test (.head _) .operand).bind fun t ht => ?_
      refine (ih ifTrue (.tail _ (.head _)) .body).bind fun u hu => ?_
      refine (ih ifFalse (.tail _ (.tail _ (.head _))) .body).bind fun v hv => .pure ?_
      exact hgood.args rfl (by simp [ht, hu, hv])
    | convert operand type =>
      rw [lower]
      exact (Gives.anything _).bind fun _ _ => ih operand (.head _) position
    | lambda params body =>
      rw [lower]
      -- Only here a function comes in, and its property is the one that was asked for.
      intro before t ht
      obtain ⟨slots, inner, hlength, hinner, rfl⟩ :=
        compileFunction_gives (ih body (.head _)) before t ht
      exact hfunction params body rfl slots inner hlength hinner

end Compiler

end DocQuery
