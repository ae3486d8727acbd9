import DocQuery.Compile.Defaults
import DocQuery.Proofs.Codec.Build
import DocQuery.Proofs.Compile.Caches
import DocQuery.Proofs.Compile.Hygiene

/-!
# Access to fields

Access to a field of a record is compiled to the term that reads the field by its document name.
The default registrations have no member of records, so no field name is taken. They have three
members of options, and access to a field of an option of a record looks these up first: a field
with the name of one of them cannot be read through an option.

## Key results

- `Registry.member?_defaults_record`, `Registry.template?_defaults_record`: records have no
  registered members
- `Compiler.compile_field`: what access to a field is compiled to
-/

namespace DocQuery

/-! ## Registered members -/

namespace Registry

/-- The types with registered members in `defaults`, and the one registered member of options. -/
theorem members_defaults : ∀ key ∈ defaults.members.map Prod.fst,
    key.owner ∈ [.instant, .zoned, .option] ∧ (key.owner = .option → key.name = "value") := by
  decide

/-- The types with templates of members and methods in `defaults`, and the templates of options. -/
theorem templates_defaults : ∀ key ∈ defaults.templates.map Prod.fst,
    key.member.owner ∈ [.instant, .zoned, .option, .list, .string, .map] ∧
      (key.member.owner = .option → key.member.name ∈ ["is_some", "is_none"]) := by
  decide

/-- Records have no registered members, whatever their names: no record is among the owners. -/
theorem member?_defaults_record (record name : String) :
    defaults.member? (.record record) name = none := by
  refine Members.get?_eq_none fun hmem => ?_
  have howner := (members_defaults _ hmem).1
  simp at howner

/-- Records have no templates, whatever the names of their members. -/
theorem template?_defaults_record (record name : String) :
    defaults.template? (.record record) name none = none := by
  refine Members.get?_eq_none fun hmem => ?_
  have howner := (templates_defaults _ hmem).1
  simp at howner

/-- Neither `empty` nor `defaults` has members of records. -/
theorem lookup_field {registry : Registry} (hregistry : registry = .empty ∨ registry = .defaults)
    (record name : String) :
    registry.member? (.record record) name = none ∧
      registry.template? (.record record) name none = none := by
  rcases hregistry with rfl | rfl
  · exact ⟨rfl, rfl⟩
  · exact ⟨member?_defaults_record record name, template?_defaults_record record name⟩

/-- Of options only the member `value` has an override. -/
theorem member?_defaults_option {name : String} (h : name ≠ "value") :
    defaults.member? .option name = none :=
  Members.get?_eq_none fun hmem => h ((members_defaults _ hmem).2 rfl)

/-- Of options only the members `is_some` and `is_none` have templates. -/
theorem template?_defaults_option {name : String} (h : name ∉ ["is_some", "is_none"]) :
    defaults.template? .option name none = none :=
  Members.get?_eq_none fun hmem => h ((templates_defaults _ hmem).2 rfl)

/-- No registered member stands before a field of a record, and only `value`, `is_some` and
    `is_none` stand before a field that is read through an option. -/
theorem lookup_defaults_field {type : Ty} {r : RecordType} {name : String}
    (htype : type = .record r ∨ type = .option (.record r))
    (hfree : type = .record r ∨ name ∉ ["value", "is_some", "is_none"]) :
    defaults.member? type.key name = none ∧ defaults.template? type.key name none = none := by
  rcases htype with rfl | rfl
  · exact ⟨member?_defaults_record r.name name, template?_defaults_record r.name name⟩
  · have hname : name ∉ ["value", "is_some", "is_none"] := by simpa using hfree
    simp only [List.mem_cons, not_or] at hname
    refine ⟨member?_defaults_option hname.1, template?_defaults_option ?_⟩
    simpa using ⟨hname.2.1, hname.2.2.1⟩

end Registry

/-! ## Access to a field -/

/-- The result of a step that goes on from a result is that of what comes next, in the state that
    `step` left. -/
theorem Lowering.result_bind {α β : Type} {step : Lowering α} {before : CompileState} {a : α}
    (h : (step.run before).1 = .ok a) (f : α → Lowering β) :
    ((step >>= f).run before).1 = ((f a).run (step.run before).2).1 := by
  rcases hrun : step.run before with ⟨result, after⟩
  rw [hrun] at h
  have h : result = .ok a := h
  rw [run_bind_ok (h ▸ hrun)]

namespace Compiler

open Lowering (Action)

variable {names : Naming} {c : Compiler} {settings : Settings} {r : RecordType} {field : Field}
  {name : String} {e : Expr} {t : Term}

/-- A declared field has a document name, which `wireName?` finds also through an option, without a
    change to the scope. -/
theorem run_wireName? (hengine : c.engine = .ofSettings settings) {type : Ty}
    (htype : type = .record r ∨ type = .option (.record r)) (hnamed : type.Named names)
    {converter : Converter}
    (hbuilt : Factory.build (Factory.defaults settings) (.record r) = .ok converter)
    (hfield : r.field? name = some field) (scope : Scope) {cache : ConverterCache}
    (hcache : cache.Agrees names c.engine.chain) :
    ∃ after : ConverterCache, after.Agrees names c.engine.chain ∧
      (c.wireName? type name).run ⟨scope, cache⟩ = (.ok (some field.wireName), ⟨scope, after⟩) := by
  -- Only the record is resolved, and its type is over the naming in both cases.
  have hrecord : (Ty.record r).Named names := by
    rcases htype with rfl | rfl
    · exact hnamed
    · exact Ty.named_option.mp hnamed
  obtain ⟨after, hrun, hafter, -⟩ := Engine.resolve_follows ConverterCache.knows_agrees
    (defaults_needsComponents hengine) hrecord cache hcache
  have hbuild : Factory.build c.engine.chain (.record r) = .ok converter := by
    rw [hengine]
    exact hbuilt
  rw [hbuild] at hrun
  obtain ⟨converters, rfl, -⟩ := Factory.exists_of_build_record hbuilt
  have hwireName : (Converter.record r converters).fieldName? name = some field.wireName := by
    rw [Converter.fieldName?, hfield, Option.map_some]
  refine ⟨after, hafter, ?_⟩
  -- An option is unwrapped before, so that one converter is looked up in both cases.
  have hresolve : (Lowering.ofSession (c.engine.resolve (.record r))).run ⟨scope, cache⟩ =
      (.ok (.record r converters), ⟨scope, after⟩) := by
    rw [Lowering.run_ofSession, hrun]
  rw [← hwireName]
  rcases htype with rfl | rfl
  · exact Lowering.run_bind_ok hresolve _
  · exact Lowering.run_bind_ok hresolve _

/-- A member that is not registered and has a document name is read from the term of its target. -/
theorem result_compileField {whole : Expr} {callee : Callee} {action : Action} {wireName : String}
    (hconstant : ∀ value type, e ≠ .constant value type) {before middle : CompileState}
    (hname : (c.wireName? e.type callee.name).run before = (.ok (some wireName), middle))
    (haction : ((action .operand).run middle).1 = .ok t) :
    ((c.compileField whole callee (some e) (some action)).run before).1 =
      .ok (.getField t wireName) := by
  have hread : ((action .operand >>= fun object =>
      (Pure.pure (Term.getField object wireName) : Lowering Term)).run middle).1 =
        .ok (.getField t wireName) := Lowering.result_bind haction _
  -- Constants are evaluated instead; for all other targets the two steps come in a row.
  cases e with
  | constant value type => exact absurd rfl (hconstant value type)
  | _ => exact (congrArg Prod.fst (Lowering.run_bind_ok hname _)).trans hread

theorem result_targetTerm {action : Action} {before : CompileState}
    (haction : ((action .operand).run before).1 = .ok t) :
    ((targetTerm (some action)).run before).1 = .ok (some t) :=
  Lowering.result_bind haction _

/-- The member `value` of options is compiled to the target itself. -/
theorem result_compileMember_value {whole : Expr} {callee : Callee} {action : Action}
    (hregistry : c.registry = .defaults) (howner : callee.owner.key = .option)
    (hname : callee.name = "value") {before : CompileState}
    (haction : ((action .operand).run before).1 = .ok t) :
    ((c.compileMember whole callee (some e) (some action)).run before).1 = .ok t := by
  have hfound : c.registry.member? callee.owner.key callee.name =
      some (.receiver "Option::value") := by
    rw [hregistry, howner, hname]
    rfl
  rw [compileMember, hfound]
  exact Lowering.result_bind (result_targetTerm haction) _

/-- The members of options with a `nullTest` for a template are compiled to comparisons with
    null. -/
theorem result_compileMember_nullTest {whole : Expr} {callee : Callee} {action : Action}
    {kind : TermKind} (hregistry : c.registry = .defaults) (howner : callee.owner.key = .option)
    (hvalue : callee.name ≠ "value")
    (hfound : Registry.defaults.template? .option callee.name none = some (Registry.nullTest kind))
    {before : CompileState} (haction : ((action .operand).run before).1 = .ok t) :
    ((c.compileMember whole callee (some e) (some action)).run before).1 =
      .ok (.node kind [t, .literal .null]) := by
  rw [compileMember, hregistry, howner, Registry.member?_defaults_option hvalue, hfound]
  exact Lowering.result_bind (result_targetTerm haction) _

/-- The member that access to a field stands for. It belongs to the type of the whole expression
    `e`, which may be an option. -/
def fieldCallee (e : Expr) (name : String) (field : Field) : Callee :=
  ⟨e.type, name, field.type, none⟩

/-- Access to a declared field of a record, or of an option of one, is the member `fieldCallee`. -/
theorem field_eq_ok (htype : e.type = .record r ∨ e.type = .option (.record r))
    (hfield : r.field? name = some field) :
    e.field name = .ok (.member (some e) (fieldCallee e name field)) := by
  rcases htype with htype | htype
  all_goals
    simp only [Expr.field, htype, hfield, fieldCallee, pure_bind]
    rfl

/-- A member is compiled in the scope that is given, by `compileMember`. -/
theorem result_compile_member (callee : Callee) (scope : Scope) (cache : ConverterCache) :
    ((c.compile (.member (some e) callee) scope).run cache).1 =
      ((c.compileMember (.member (some e) callee) callee (some e) (some (c.lower e))).run
        ⟨scope, cache⟩).1 := by
  have hlower : c.lower (.member (some e) callee) .body =
      c.compileMember (.member (some e) callee) callee (some e) (some (c.lower e)) := by
    rw [lower, lowerTarget]
  rw [compile, hlower]
  rfl

/-- Access to a declared field of an expression whose type is a record type or an option of one is
    compiled, in the scope of the expression, to `getField` of the term of the expression under the
    document name of the field. Through an option three fields are not read, those named `value`,
    `is_some` and `is_none`: the registered members of options with their names come first. -/
theorem compile_field (hengine : c.engine = .ofSettings settings)
    (hregistry : c.registry = .defaults)
    (hbuilt : ∃ converter, Factory.build (Factory.defaults settings) (.record r) = .ok converter)
    (hfield : r.field? name = some field) (he : e.Named names)
    (hconstant : ∀ value type, e ≠ .constant value type)
    (htype : e.type = .record r ∨ e.type = .option (.record r)) {scope : Scope}
    {cache : ConverterCache} (hcache : cache.Agrees names c.engine.chain)
    (hlower : ((c.lower e .operand).run ⟨scope, cache⟩).1 = .ok t) :
    ∃ access, e.field name = .ok access ∧
      ∀ later : ConverterCache, later.Agrees names c.engine.chain →
        (e.type = .record r ∨ name ∉ ["value", "is_some", "is_none"] →
          ((c.compile access scope).run later).1 = .ok (.getField t field.wireName)) ∧
        (e.type = .option (.record r) → name = "value" →
          ((c.compile access scope).run later).1 = .ok t) ∧
        (e.type = .option (.record r) → name = "is_some" →
          ((c.compile access scope).run later).1 = .ok (.node .ne [t, .literal .null])) ∧
        (e.type = .option (.record r) → name = "is_none" →
          ((c.compile access scope).run later).1 = .ok (.node .eq [t, .literal .null])) := by
  obtain ⟨converter, hbuilt⟩ := hbuilt
  have hlinear : c.registry.Linear (fun _ => True) fun _ => False :=
    Registry.linear_of_eq (.inr hregistry) Datum.constants_true
  -- The expression is compiled to its term whatever converters are known.
  have hlowers {after : ConverterCache} (hafter : after.Agrees names c.engine.chain) :
      ((c.lower e .operand).run ⟨scope, after⟩).1 = .ok t := by
    rw [← hlower]
    exact result_lower_eq (defaults_needsComponents hengine) hlinear he hafter hcache .operand scope
  refine ⟨_, field_eq_ok htype hfield, fun later hlater => ?_⟩
  rw [result_compile_member]
  refine ⟨fun hfree => ?_, fun hoption hname => ?_, fun hoption hname => ?_,
    fun hoption hname => ?_⟩
  · -- Finding the document name comes before the expression and may build converters.
    obtain ⟨after, hafter, hwireName⟩ :=
      run_wireName? hengine htype he.at_top.1 hbuilt hfield scope hlater
    obtain ⟨hmember, htemplate⟩ := Registry.lookup_defaults_field htype hfree
    rw [compileMember, hregistry]
    simp only [fieldCallee, hmember, htemplate]
    exact result_compileField hconstant hwireName (hlowers hafter)
  · -- Through an option the owner of the member is the option, so its registered members are found.
    have howner : (fieldCallee e name field).owner.key = .option := congrArg Ty.key hoption
    exact result_compileMember_value hregistry howner hname (hlowers hlater)
  · subst hname
    have howner : (fieldCallee e "is_some" field).owner.key = .option := congrArg Ty.key hoption
    exact result_compileMember_nullTest hregistry howner (by simp [fieldCallee]) rfl
      (hlowers hlater)
  · subst hname
    have howner : (fieldCallee e "is_none" field).owner.key = .option := congrArg Ty.key hoption
    exact result_compileMember_nullTest hregistry howner (by simp [fieldCallee]) rfl
      (hlowers hlater)

/-- A record of which one field is named as a member of options is. -/
def wrapperType : RecordType :=
  ⟨"Wrapper", .declared, [⟨"value", "value", .string, true, .string ""⟩,
    ⟨"size", "n", .string, true, .string ""⟩]⟩

/-- A parameter that may hold a record of `wrapperType`. -/
def wrapper : Parameter := ⟨"wrapper", .option (.record wrapperType)⟩

/-- A scope with the parameter `wrapper` in the slot 1. -/
def wrapperScope : Scope := ⟨[(wrapper, 1)], 2⟩

/-- The naming in which every record is a wrapper and no enumeration has a variant. -/
def wrapperNaming : Naming := ⟨fun name => ⟨name, []⟩, fun _ _ => wrapperType⟩

/-- The converter that the default chain builds for `wrapperType`. -/
theorem build_wrapperType :
    Factory.build (Factory.defaults {}) (.record wrapperType) =
      .ok (.record wrapperType [.leaf .string, .leaf .string]) := by
  have hstring : Factory.build (Factory.defaults {}) .string = .ok (.leaf .string) :=
    Factory.build_leaf rfl
  have hfields : Sequence.collect (Factory.build (Factory.defaults {})) [.string, .string] =
      .ok [.leaf .string, .leaf .string] := by
    rw [Sequence.collect, Sequence.collect, hstring]
    rfl
  rw [Factory.build_record]
  exact congrArg (Except.map (Converter.record wrapperType)) hfields

/-- The types in the parameter `wrapper` are those of `wrapperNaming`. -/
theorem named_wrapper : (Expr.parameter wrapper).Named wrapperNaming := by
  have hstring : Ty.string.Named wrapperNaming := Ty.named_of_leaf rfl trivial
  have hrecord : (Ty.record wrapperType).Named wrapperNaming := by
    refine .intro rfl fun child hchild => ?_
    obtain rfl : child = .string := by simpa [Ty.components, wrapperType] using hchild
    exact hstring
  have hnode : (Expr.parameter wrapper).NamedNode wrapperNaming := by
    -- A parameter has no value that would have to be named.
    refine ⟨Ty.named_option.mpr hrecord, fun v hv => ?_⟩
    rw [Expr.evaluate] at hv
    cases hv
  exact .of_leaf rfl hnode

theorem lower_wrapper :
    ((defaultCompiler.lower (.parameter wrapper) .operand).run ⟨wrapperScope, .empty⟩).1 =
      .ok (.var 1) := by
  rw [lower]
  rfl

/-- The field `size` is read through the option, under its document name. -/
theorem compile_field_size :
    (defaultCompiler.engine = .ofSettings {} ∧ defaultCompiler.registry = .defaults ∧
      (∃ converter, Factory.build (Factory.defaults {}) (.record wrapperType) = .ok converter) ∧
      (Expr.parameter wrapper).Named wrapperNaming ∧
      ConverterCache.empty.Agrees wrapperNaming defaultCompiler.engine.chain) ∧
    ∃ access, (Expr.parameter wrapper).field "size" = .ok access ∧
      ((defaultCompiler.compile access wrapperScope).run .empty).1 =
        .ok (.getField (.var 1) "n") := by
  have hengine : defaultCompiler.engine = .ofSettings {} := rfl
  have hbuilt : ∃ converter,
      Factory.build (Factory.defaults {}) (.record wrapperType) = .ok converter :=
    ⟨_, build_wrapperType⟩
  have hfield : wrapperType.field? "size" = wrapperType.fields[1]? := rfl
  have hempty : ConverterCache.empty.Agrees wrapperNaming defaultCompiler.engine.chain :=
    ConverterCache.agrees_empty
  -- The parameter is an option of the record, and the name is none of the options' own members.
  obtain ⟨access, haccess, hcompiled⟩ := compile_field hengine rfl hbuilt hfield named_wrapper
    (fun _ _ h => by cases h) (.inr rfl) hempty lower_wrapper
  exact ⟨⟨hengine, rfl, hbuilt, named_wrapper, hempty⟩, access, haccess,
    (hcompiled .empty hempty).1 (.inr (by decide))⟩

/-- The field `value` is not read: access to it is compiled to the record itself. -/
theorem not_compile_field_reads :
    ((defaultCompiler.lower (.parameter wrapper) .operand).run ⟨wrapperScope, .empty⟩).1 =
        .ok (.var 1) ∧
      ∃ access, (Expr.parameter wrapper).field "value" = .ok access ∧
        ((defaultCompiler.compile access wrapperScope).run .empty).1 = .ok (.var 1) ∧
        Term.var 1 ≠ .getField (.var 1) "value" := by
  refine ⟨lower_wrapper, _, field_eq_ok (.inr rfl) rfl, ?_, fun hread => ?_⟩
  · rw [result_compile_member]
    exact result_compileMember_value rfl rfl rfl lower_wrapper
  · exact TermKind.noConfusion (congrArg Term.kind hread)

end Compiler

end DocQuery
