import DocQuery.Compile.Defaults
import DocQuery.Proofs.Compile.Lowering
import DocQuery.Proofs.Compile.Template

/-!
# Overrides that use their operands once

A template is linear when no place comes up twice in it, and a plan when it compiles the target and
the operands at most once and yields its term from what it compiled. The default registrations are
linear.

## Key results

- `Template.Linear.instantiate`: a linear template uses what it is filled in with at most once
- `Registry.linear_defaults`: the default registrations are linear
-/

namespace DocQuery

open Term (Yields)

/-- The datums that stand in terms whatever the engine are `carried`: null, safe integers, texts. -/
structure Datum.Constants (carried : Datum → Prop) : Prop where
  null : carried .null
  integer : ∀ n : Int, n.natAbs ≤ 9007199254740992 → carried (.ofInt n)
  string : ∀ s, carried (.string s)

/-- Where every datum is carried, these are. -/
theorem Datum.constants_true : Datum.Constants fun _ => True :=
  ⟨trivial, fun _ _ => trivial, fun _ => trivial⟩

variable {carried : Datum → Prop} {allowed : Value → Prop}

namespace Template

/-! ## Templates -/

mutual

/-- Nodes hold no datum and neither read nor list slots, arrays have no options, and the datums of
    literals are `carried`. -/
def Built (carried : Datum → Prop) : Template → Prop
  | target | argument _ => True
  | literal datum => carried datum
  | node kind args options =>
    kind.plain = true ∧ (kind = .makeArray → options = []) ∧ BuiltArgs carried args ∧
      BuiltOptions carried options

/-- The arguments of a node are `Built`. -/
def BuiltArgs (carried : Datum → Prop) : List Template → Prop
  | [] => True
  | t :: rest => Built carried t ∧ BuiltArgs carried rest

/-- The options of a node are `Built`. -/
def BuiltOptions (carried : Datum → Prop) : List (String × Template) → Prop
  | [] => True
  | (_, t) :: rest => Built carried t ∧ BuiltOptions carried rest

end

theorem built_arg {carried : Datum → Prop} (index : Nat) : Built carried (arg index) := trivial

/-- No place comes up twice, and the template is `Built`. -/
structure Linear (carried : Datum → Prop) (t : Template) : Prop where
  nodup : t.places.Nodup
  built : t.Built carried

variable {receiver : Option Term} {args : List Term}

mutual

/-- The term that `instantiate` gives is built from what stands at the places of the template, in
    their order. -/
theorem instantiate_yields_places : ∀ {t : Template} {term : Term}, t.Built carried →
    t.instantiate receiver args = .ok term →
    Yields carried (t.places.filterMap (filler receiver args)) [term]
  | target, term, _, h => by
    unfold instantiate at h
    split at h
    · -- Without a target there is none to fill in, so the template is refused.
      obtain rfl := Except.ok.inj h
      exact .refl _
    · cases h
  | argument position, term, _, h => by
    unfold instantiate at h
    split at h
    · rename_i t hfound
      obtain rfl := Except.ok.inj h
      have hplace : [some position.toNat].filterMap (filler receiver args) = [t] :=
        List.filterMap_cons_some hfound
      rw [places, hplace]
      exact .refl _
    · cases h
  | literal datum, term, hbuilt, h => by
    obtain rfl := Except.ok.inj h
    exact .literal hbuilt []
  | node kind children options, term, hbuilt, h => by
    obtain ⟨hkind, harray, hchildren, hoptions⟩ := hbuilt
    obtain ⟨terms, hterms, h⟩ := Sequence.exists_of_bind_eq_ok h
    obtain ⟨members, hmembers, h⟩ := Sequence.exists_of_bind_eq_ok h
    obtain rfl := Except.ok.inj h
    -- The arguments are filled in before the options, as the places are listed.
    have hargs := instantiateAll_yields hchildren hterms
    have hvalues := instantiateOptions_yields hoptions hmembers
    -- Of options with equal names the later one stays, so the values of some may be dropped.
    have hkept : Yields carried (members.map Prod.snd) ((Members.ofList members).map Prod.snd) :=
      .of_subperm (Members.values_ofList_subperm members)
    have hplain : kind = .makeArray → Members.ofList members = [] := by
      intro hkind
      rw [harray hkind] at hmembers
      obtain rfl := Except.ok.inj hmembers
      rfl
    rw [places, List.filterMap_append]
    exact (hargs.append (hvalues.trans hkept)).trans
      (.node hkind hplain (Members.nodup_ofList members))

/-- The arguments of a node are built from what stands at their places. -/
theorem instantiateAll_yields : ∀ {ts : List Template} {terms : List Term},
    BuiltArgs carried ts → instantiateAll receiver args ts = .ok terms →
    Yields carried ((placesOfArgs ts).filterMap (filler receiver args)) terms
  | [], _, _, h => by
    obtain rfl := Except.ok.inj h
    exact .refl []
  | t :: rest, _, hbuilt, h => by
    obtain ⟨term, hterm, h⟩ := Sequence.exists_of_bind_eq_ok h
    obtain ⟨terms, hterms, h⟩ := Sequence.exists_of_bind_eq_ok h
    obtain rfl := Except.ok.inj h
    rw [placesOfArgs, List.filterMap_append]
    exact (instantiate_yields_places hbuilt.1 hterm).append (instantiateAll_yields hbuilt.2 hterms)

/-- The options of a node are built from what stands at their places. -/
theorem instantiateOptions_yields : ∀ {options : List (String × Template)}
    {members : List (String × Term)}, BuiltOptions carried options →
    instantiateOptions receiver args options = .ok members →
    Yields carried ((placesOfOptions options).filterMap (filler receiver args))
      (members.map Prod.snd)
  | [], _, _, h => by
    obtain rfl := Except.ok.inj h
    exact .refl []
  | (name, t) :: rest, _, hbuilt, h => by
    -- The first option fills its places, and then the others theirs.
    obtain ⟨term, hterm, h⟩ := Sequence.exists_of_bind_eq_ok h
    obtain ⟨members, hmembers, h⟩ := Sequence.exists_of_bind_eq_ok h
    obtain rfl := Except.ok.inj h
    rw [placesOfOptions, List.filterMap_append]
    exact (instantiate_yields_places hbuilt.1 hterm).append
      (instantiateOptions_yields hbuilt.2 hmembers)

end

/-- The arguments stand at the places with their numbers, so all of them are found in the order of
    `List.range`. -/
theorem filterMap_range_getElem? (args : List Term) :
    (List.range args.length).filterMap (args[·]?) = args := by
  induction args with
  | nil => rfl
  | cons t rest ih =>
    -- The place of the front term is zero, and the others move up by one.
    have hfirst : (t :: rest)[0]? = some t := rfl
    rw [List.length_cons, List.range_succ_eq_map, List.filterMap_cons_some hfirst,
      List.filterMap_map]
    exact congrArg (t :: ·) ih

/-- The places where `filler` has something are the target, where there is one, and the numbers of
    the arguments. -/
theorem filterMap_filler (receiver : Option Term) (args : List Term) :
    (none :: (List.range args.length).map some).filterMap (filler receiver args)
      = receiver.toList ++ args := by
  -- The places of the arguments are filled by the arguments in a row.
  have hargs : ((List.range args.length).map some).filterMap (filler receiver args) = args := by
    rw [List.filterMap_map]
    exact filterMap_range_getElem? args
  cases receiver with
  | none => rw [List.filterMap_cons_none rfl, hargs, Option.toList_none, List.nil_append]
  | some t =>
    have htarget : filler (some t) args none = some t := rfl
    rw [List.filterMap_cons_some htarget, hargs, Option.toList_some, List.singleton_append]

/-- A place where `filler` has something is the target or the number of an argument. -/
theorem mem_of_isSome_filler {place : Option Nat} (h : (filler receiver args place).isSome) :
    place ∈ none :: (List.range args.length).map some := by
  cases place with
  | none => exact .head _
  | some index =>
    obtain ⟨t, ht⟩ := Option.isSome_iff_exists.mp h
    obtain ⟨hindex, -⟩ := List.getElem?_eq_some_iff.mp ht
    exact .tail _ (List.mem_map_of_mem (List.mem_range.mpr hindex))

/-- Where no place comes up twice, everything is used at most once. -/
theorem filterMap_filler_subperm {places : List (Option Nat)} (h : places.Nodup)
    (receiver : Option Term) (args : List Term) :
    (places.filterMap (filler receiver args)).Subperm (receiver.toList ++ args) := by
  -- Places where nothing stands may be left out before it is looked at what stands at the others.
  have hfilled : places.filterMap (filler receiver args)
      = (places.filter fun place => (filler receiver args place).isSome).filterMap
        (filler receiver args) := by
    rw [List.filterMap_filter]
    refine List.filterMap_congr fun place _ => ?_
    cases filler receiver args place <;> rfl
  -- Places without repetition at which something stands are among the target and the numbers.
  rw [hfilled, ← filterMap_filler]
  have hsub : (places.filter fun place => (filler receiver args place).isSome).Subperm
      (none :: (List.range args.length).map some) :=
    List.subperm_of_subset (h.filter _) fun place hplace =>
      mem_of_isSome_filler (List.mem_filter.mp hplace).2
  obtain ⟨kept, hperm, hsublist⟩ := hsub
  exact ⟨kept.filterMap _, hperm.filterMap _, hsublist.filterMap _⟩

/-- Filling in a `Linear` template uses the target and the arguments at most once. -/
theorem Linear.instantiate {t : Template} {term : Term} (ht : t.Linear carried)
    (h : t.instantiate receiver args = .ok term) :
    Yields carried (receiver.toList ++ args) [term] :=
  (Yields.of_subperm (filterMap_filler_subperm ht.nodup receiver args)).trans
    (instantiate_yields_places ht.built h)

end Template

namespace Plan

/-! ## Plans and overrides -/

/-- The plan yields its term from the given terms and from what it still compiles: the target where
    `target` is set, and the operands where `operands` is, each at most once. The values that it
    makes literals of are `allowed`. -/
inductive Linear (carried : Datum → Prop) (allowed : Value → Prop) :
    (target operands : Bool) → List Term → Plan → Prop where
  | done {target operands : Bool} {given : List Term} {term : Term}
    (h : Yields carried given [term]) : Linear carried allowed target operands given (.done term)
  | fail {target operands : Bool} {given : List Term} (error : Error) :
    Linear carried allowed target operands given (.fail error)
  | target {operands : Bool} {given : List Term} {next : Option Term → Plan}
    (h : ∀ t, Linear carried allowed false operands (given ++ t.toList) (next t)) :
    Linear carried allowed true operands given (.target next)
  | operands {target : Bool} {given : List Term} {position : Position} {next : List Term → Plan}
    (h : ∀ ts, Linear carried allowed target false (given ++ ts) (next ts)) :
    Linear carried allowed target true given (.operands position next)
  | literal {target operands : Bool} {given : List Term} {value : Value} {type : Ty}
    {next : Term → Plan} (hvalue : allowed value)
    (h : ∀ t, Linear carried allowed target operands (given ++ [t]) (next t)) :
    Linear carried allowed target operands given (.literal value type next)
  | depth {target operands : Bool} {given : List Term} {next : Nat → Plan}
    (h : ∀ depth, Linear carried allowed target operands given (next depth)) :
    Linear carried allowed target operands given (.depth next)

/-- A `Linear` template is filled in at the end of a plan, with what was compiled before. -/
theorem Linear.instantiate {template : Template} (htemplate : template.Linear carried)
    {target operands : Bool} (receiver : Option Term) (args : List Term) :
    Linear carried allowed target operands (receiver.toList ++ args)
      (.ofExcept (template.instantiate receiver args)) := by
  cases h : template.instantiate receiver args with
  | ok term => exact .done (htemplate.instantiate h)
  | error e => exact .fail e

/-- A template without arguments is filled in with the target alone. -/
theorem Linear.instantiateTarget {template : Template} (htemplate : template.Linear carried)
    {operands : Bool} :
    Linear carried allowed true operands []
      (.target fun t => .ofExcept (template.instantiate t [])) := by
  refine .target fun t => ?_
  have h : Linear carried allowed false operands (t.toList ++ [])
      (.ofExcept (template.instantiate t [])) := .instantiate htemplate t []
  rwa [List.append_nil] at h

end Plan

namespace Override

/-- The plan of the override is `Linear`, whatever target and operands it looks at. -/
def Linear (carried : Datum → Prop) (allowed : Value → Prop) (o : Override) : Prop :=
  ∀ target operands, (o.plan target operands).Linear carried allowed true true []

/-- The override `accessor` compiles its target once. -/
theorem linear_accessor {kind : TermKind} (hkind : kind.plain = true) :
    (accessor kind).Linear carried allowed := by
  intro target operands
  have htemplate : (Template.ofTarget kind).Linear carried :=
    ⟨List.nodup_singleton none, hkind, fun _ => rfl, ⟨trivial, trivial⟩, trivial⟩
  cases target with
  | none => exact .fail _
  | some e => exact .instantiateTarget htemplate

/-- The override `receiver` compiles its target once and adds nothing. -/
theorem linear_receiver (name : String) : (receiver name).Linear carried allowed := by
  intro target operands
  have htemplate : Template.target.Linear carried := ⟨List.nodup_singleton none, trivial⟩
  cases target with
  | none => exact .fail _
  | some e => exact .instantiateTarget htemplate

/-- By the override `nodeOf` the target and the operands become the arguments of a term. -/
theorem linear_nodeOf {kind : TermKind} (hkind : kind.plain = true) :
    (nodeOf kind).Linear carried allowed :=
  fun _ _ => .target fun _ => .operands fun _ => .done (.args hkind)

/-- The override `ofTemplate` fills in its template with operands alone, once each. -/
theorem linear_ofTemplate {call : String} {template : Template}
    (htemplate : template.Linear carried) : (ofTemplate call template).Linear carried allowed := by
  intro target operands
  unfold ofTemplate
  dsimp only
  split
  · exact .fail _
  · exact .operands fun args => .instantiate htemplate none args

end Override

namespace Registry

/-! ## Registries -/

/-- Every override and every template of the registry has a property. -/
structure Every (override : Override → Prop) (template : Template → Prop) (r : Registry) :
    Prop where
  binary : ∀ m ∈ r.binary, override m.2
  unary : ∀ m ∈ r.unary, override m.2
  members : ∀ m ∈ r.members, override m.2
  methods : ∀ m ∈ r.methods, override m.2
  constructors : ∀ m ∈ r.constructors, override m.2
  templates : ∀ m ∈ r.templates, template m.2

namespace Every

variable {override : Override → Prop} {template : Template → Prop} {r : Registry} {o : Override}

/-- What holds of all overrides and of all templates holds of those in a registry. -/
theorem of_forall (ho : ∀ o, override o) (ht : ∀ t, template t) (r : Registry) :
    r.Every override template := by
  constructor <;> exact fun m _ => by first | exact ho m.2 | exact ht m.2

/-- In the registry `empty` there is nothing that could fail to have a property. -/
theorem empty : Registry.empty.Every override template := by
  constructor <;> exact fun _ hm => absurd hm List.not_mem_nil

/-- Registering an override of a binary operator keeps a property that the override has. -/
theorem addBinary (hr : r.Every override template) (ho : override o) (left right : TypeKey)
    (op : BinaryOp) : (r.addBinary left right op o).Every override template :=
  { hr with binary := Members.forall_mem_set hr.binary ho _ }

theorem addMember (hr : r.Every override template) (ho : override o) (owner : TypeKey)
    (name : String) : (r.addMember owner name o).Every override template :=
  { hr with members := Members.forall_mem_set hr.members ho _ }

theorem addConstructor (hr : r.Every override template) (ho : override o) (type : TypeKey)
    (name : String) : (r.addConstructor type name o).Every override template :=
  { hr with constructors := Members.forall_mem_set hr.constructors ho _ }

theorem addTemplate (hr : r.Every override template) {t : Template} (ht : template t)
    (owner : TypeKey) (name : String) (arg : Option TypeKey) :
    (r.addTemplate owner name arg t).Every override template :=
  { hr with templates := Members.forall_mem_set hr.templates ht _ }

/-- What `binary?` finds, under the exact key or under one with a wildcard, is an entry. -/
theorem of_binary? (hr : r.Every override template) {left right : TypeKey} {op : BinaryOp}
    (h : r.binary? left right op = some o) : override o := by
  simp only [binary?, Option.or_eq_some_iff] at h
  rcases h with (h | ⟨-, h⟩) | ⟨-, h⟩ <;> exact hr.binary _ (Members.mem_of_get? h)

/-- What `unary?` finds is an entry. -/
theorem of_unary? (hr : r.Every override template) {operand : TypeKey} {op : UnaryOp}
    (h : r.unary? operand op = some o) : override o := by
  simp only [unary?, Option.or_eq_some_iff] at h
  rcases h with h | ⟨-, h⟩ <;> exact hr.unary _ (Members.mem_of_get? h)

/-- What `member?` finds is an entry. -/
theorem of_member? (hr : r.Every override template) {owner : TypeKey} {name : String}
    (h : r.member? owner name = some o) : override o :=
  hr.members _ (Members.mem_of_get? h)

theorem of_method? (hr : r.Every override template) {owner : TypeKey} {name : String}
    (h : r.method? owner name = some o) : override o :=
  hr.methods _ (Members.mem_of_get? h)

theorem of_constructor? (hr : r.Every override template) {type : TypeKey} {name : String}
    (h : r.constructor? type name = some o) : override o :=
  hr.constructors _ (Members.mem_of_get? h)

/-- What `template?` finds, with or without the type of an argument, is an entry. -/
theorem of_template? (hr : r.Every override template) {owner : TypeKey} {name : String}
    {arg : Option TypeKey} {t : Template} (h : r.template? owner name arg = some t) :
    template t := by
  simp only [template?, Option.or_eq_some_iff, Option.bind_eq_some_iff] at h
  rcases h with ⟨key, -, h⟩ | ⟨-, h⟩ <;> exact hr.templates _ (Members.mem_of_get? h)

/-- Every registration of `Registry.defaults` has a property that those of each sort have. -/
theorem defaults (hmembers : ∀ m ∈ defaultMembers, override m.2.2)
    (htemplates : ∀ m ∈ defaultTemplates, template m.2.2)
    (hconstructors : ∀ m ∈ defaultConstructors, ∀ call, override (.ofTemplate call m.2.2))
    (hoperators : ∀ m ∈ defaultOperators, override m.2.2.2) :
    Registry.defaults.Every override template := by
  -- Registering one entry after another keeps the property. The last registrations come first here.
  unfold Registry.defaults addDefaults
  refine List.foldlRecOn _ _ ?_ fun r hr m hm =>
    hr.addBinary (hoperators m hm) m.1 m.2.1 m.2.2.1
  refine List.foldlRecOn _ _ ?_ fun r hr m hm =>
    hr.addConstructor (hconstructors m hm _) m.1 m.2.1
  refine List.foldlRecOn _ _ ?_ fun r hr m hm =>
    hr.addTemplate (htemplates m hm) m.1 m.2.1 none
  refine List.foldlRecOn _ _ empty fun r hr m hm => hr.addMember (hmembers m hm) m.1 m.2.1

end Every

/-- Every override and every template of the registry is linear. -/
abbrev Linear (carried : Datum → Prop) (allowed : Value → Prop) : Registry → Prop :=
  Every (Override.Linear carried allowed) (Template.Linear carried)

/-! ## Default registrations -/

/-- The accessors of times are linear, since each makes a plain node. -/
theorem linear_timeAccessors :
    ∀ m ∈ timeAccessors, (Override.accessor m.2).Linear carried allowed := by
  have hplain : ∀ m ∈ timeAccessors, m.2.plain = true := by decide
  exact fun m hm => Override.linear_accessor (hplain m hm)

/-- The default members are linear: accessors of times, and the receiver of options. -/
theorem linear_defaultMembers : ∀ m ∈ defaultMembers, m.2.2.Linear carried allowed := by
  intro m hm
  -- The accessors of times, for each of their owners, and the one member of options.
  rcases List.mem_append.mp hm with hm | hm
  · obtain ⟨owner, -, hm⟩ := List.mem_flatMap.mp hm
    obtain ⟨accessor, haccessor, rfl⟩ := List.mem_map.mp hm
    exact linear_timeAccessors accessor haccessor
  · obtain rfl := List.mem_singleton.mp hm
    exact Override.linear_receiver _

/-- The default templates are linear. No place comes up twice in any of them, which is decided, and
    their literals are constants. -/
theorem linear_defaultTemplates (hcarried : Datum.Constants carried) :
    ∀ m ∈ defaultTemplates, m.2.2.Linear carried := by
  have hnodup : ∀ m ∈ defaultTemplates, m.2.2.places.Nodup := by decide
  have hbuilt : ∀ m ∈ defaultTemplates, m.2.2.Built carried := by
    simp [defaultTemplates, nullTest, Template.ofTarget, Template.ofTargetAndArg, Template.Built,
      Template.BuiltArgs, Template.BuiltOptions, Template.built_arg, TermKind.plain, hcarried.null,
      hcarried.string, hcarried.integer]
  exact fun m hm => ⟨hnodup m hm, hbuilt m hm⟩

/-- The default constructors are linear, by the same two checks as `linear_defaultTemplates`. -/
theorem linear_defaultConstructors (hcarried : Datum.Constants carried) :
    ∀ m ∈ defaultConstructors, m.2.2.Linear carried := by
  have hnodup : ∀ m ∈ defaultConstructors, m.2.2.places.Nodup := by decide
  have hbuilt : ∀ m ∈ defaultConstructors, m.2.2.Built carried := by
    simp [defaultConstructors, scaled, Template.Built, Template.BuiltArgs, Template.BuiltOptions,
      Template.built_arg, TermKind.plain, hcarried.string, hcarried.integer]
  exact fun m hm => ⟨hnodup m hm, hbuilt m hm⟩

/-- The default operators are linear: each makes a node of its operands. -/
theorem linear_defaultOperators : ∀ m ∈ defaultOperators, m.2.2.2.Linear carried allowed := by
  simp only [defaultOperators, List.forall_mem_cons]
  exact ⟨Override.linear_nodeOf rfl, Override.linear_nodeOf rfl, Override.linear_nodeOf rfl,
    fun _ hm => absurd hm List.not_mem_nil⟩

/-- The registry `defaults` is linear. -/
theorem linear_defaults (hcarried : Datum.Constants carried) : defaults.Linear carried allowed :=
  .defaults linear_defaultMembers (linear_defaultTemplates hcarried)
    (fun m hm _ => Override.linear_ofTemplate (linear_defaultConstructors hcarried m hm))
    linear_defaultOperators

/-- The registries `empty` and `defaults` are linear. -/
theorem linear_of_eq {r : Registry} (h : r = .empty ∨ r = .defaults)
    (hcarried : Datum.Constants carried) : r.Linear carried allowed := by
  rcases h with rfl | rfl
  · exact .empty
  · exact linear_defaults hcarried

end Registry

end DocQuery
