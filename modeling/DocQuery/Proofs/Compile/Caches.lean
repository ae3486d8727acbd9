import DocQuery.Proofs.Codec.Transparent
import DocQuery.Proofs.Compile.Alike

/-!
# One compiler and two caches

What a compiler makes of an expression does not depend on the converters that its engine has built
before, as long as every name stands for one declared type. The compiler is alike to itself from any
two caches that agree with the chain of its engine.

## Key results

- `Engine.fieldName_follows`: the document name of a field is found as without a cache
- `Compiler.result_lower_eq`: from all caches an expression is compiled to the same result
-/

namespace DocQuery

/-- A session that `Follows` a pure computation answers alike from all caches with the invariant. -/
theorem Session.Follows.alike {inv : ConverterCache → Prop} {s : Session α}
    {answer : Except Error α} (h : s.Follows inv answer) :
    s.Alike (fun cache cache' => inv cache ∧ inv cache') s := by
  intro cache cache' hcaches
  obtain ⟨after, hrun, hafter, -⟩ := h cache hcaches.1
  obtain ⟨after', hrun', hafter', -⟩ := h cache' hcaches.2
  rw [hrun, hrun']
  exact ⟨rfl, hafter, hafter'⟩

/-- Both caches hold what the chain builds for types over the naming. -/
abbrev ConverterCache.BothAgree (names : Naming) (chain : List Factory)
    (cache cache' : ConverterCache) : Prop :=
  cache.Agrees names chain ∧ cache'.Agrees names chain

/-- The type of the expression and the types that its value carries are types over the naming. -/
def Expr.NamedNode (names : Naming) (e : Expr) : Prop :=
  e.type.Named names ∧ ∀ v, e.evaluate = .ok v → v.Named names

/-- Every part of the expression is as `NamedNode` says. -/
abbrev Expr.Named (names : Naming) : Expr → Prop := Everywhere Expr.parts (Expr.NamedNode names)

/-- The document name of a field of a record type, as the bare chain finds it. -/
def Factory.fieldName (chain : List Factory) (t : Ty) (name : String) : Except Error String := do
  let converter ← Factory.build chain t
  if !converter.hasFieldNames then .error (.argument (.noFieldNames t.text))
  else
    match converter.fieldName? name with
    | some wireName => .ok wireName
    | none => .error (.argument (.noMember t.text name))

/-- Finding the document name of a field follows finding it by the bare chain: past the converter
    the cache is not looked at any more. -/
theorem Engine.fieldName_follows {engine : Engine} {names : Naming} {inv : ConverterCache → Prop}
    {t : Ty} (hinv : ConverterCache.Knows inv names engine.chain)
    (hchain : ∀ factory ∈ engine.chain, factory.NeedsComponents) (ht : t.Named names)
    (name : String) :
    Session.Follows inv (engine.fieldName t name) (Factory.fieldName engine.chain t name) := by
  refine (resolve_follows hinv hchain ht).bind fun converter _ => ?_
  -- Only converters of records know names, and not every name.
  by_cases hnames : converter.hasFieldNames = true
  · simp only [hnames]
    cases converter.fieldName? name with
    | none => exact .throw _
    | some wireName => exact .pure _
  · simp only [hnames]
    exact .throw _

/-- A declared field of a record that has a converter is found to have its document name, from every
    cache with the invariant. -/
theorem Engine.fieldName_follows_of_field? {engine : Engine} {names : Naming}
    {inv : ConverterCache → Prop} {r : RecordType}
    (hinv : ConverterCache.Knows inv names engine.chain)
    (hchain : ∀ factory ∈ engine.chain, factory.NeedsComponents) (hr : (Ty.record r).Named names)
    {converters : List Converter}
    (hbuild : Factory.build engine.chain (.record r) = .ok (.record r converters)) {name : String}
    {field : Field} (hfield : r.field? name = some field) :
    Session.Follows inv (engine.fieldName (.record r) name) (.ok field.wireName) := by
  have hwireName : (Converter.record r converters).fieldName? name = some field.wireName := by
    rw [Converter.fieldName?, hfield, Option.map_some]
  have hname : Factory.fieldName engine.chain (.record r) name = .ok field.wireName := by
    simp only [Factory.fieldName, hbuild, bind, Except.bind, hwireName]
    rfl
  exact hname ▸ fieldName_follows hinv hchain hr name

namespace Compiler

variable {names : Naming} {c : Compiler}

/-- The chain of `defaults` never looks beyond the parts of a type. -/
theorem defaults_needsComponents {settings : Settings} (hengine : c.engine = .ofSettings settings) :
    ∀ factory ∈ c.engine.chain, factory.NeedsComponents := by
  rw [hengine]
  exact Factory.defaults_needsComponents settings

/-- A compiler `Matches` itself from any two caches that agree with its chain: each lookup follows
    the bare chain on both sides. -/
theorem matches_self (hchain : ∀ factory ∈ c.engine.chain, factory.NeedsComponents)
    (hlinear : c.registry.Linear (fun _ => True) fun _ => False) :
    c.Matches id (ConverterCache.BothAgree names c.engine.chain) (fun _ => False)
      (Expr.NamedNode names) c where
  injective := Function.injective_id
  registry := rfl
  linear := hlinear
  uniform := .of_forall Override.uniform_id (fun _ => trivial) c.registry
  folding := .inl rfl
  encode _ v he hv :=
    (Engine.encode_follows ConverterCache.knows_agrees hchain he.1 (he.2 v hv)).alike
  wireName e name he := by
    refine wireName?_alike (fun t ht => ?_) name
    -- The type in question is that of the expression or, for an option, the one inside.
    have hnamed : t.Named names := by
      rcases ht with ht | ht
      · exact ht ▸ he.1
      · exact Ty.named_option.mp (ht ▸ he.1)
    exact (Engine.resolve_follows ConverterCache.knows_agrees hchain hnamed).alike
  fieldName _ name he :=
    (Engine.fieldName_follows ConverterCache.knows_agrees hchain he.1 name).alike

/-- From any two caches that agree with the chain `lower` compiles an expression to the same
    result. -/
theorem result_lower_eq (hchain : ∀ factory ∈ c.engine.chain, factory.NeedsComponents)
    (hlinear : c.registry.Linear (fun _ => True) fun _ => False) {e : Expr} (he : e.Named names)
    {cache cache' : ConverterCache} (hcache : cache.Agrees names c.engine.chain)
    (hcache' : cache'.Agrees names c.engine.chain) (position : Position) (scope : Scope) :
    ((c.lower e position).run ⟨scope, cache⟩).1 = ((c.lower e position).run ⟨scope, cache'⟩).1 := by
  have hends :=
    lower_alike (matches_self hchain hlinear) e he position scope cache cache' ⟨hcache, hcache'⟩
  -- Compared with itself the expression keeps all its names, so the results are equal.
  rw [Expr.rename_id, Scope.rename_id] at hends
  rcases hends.escapes_or_eq with ⟨_, _, hfalse⟩ | ⟨hresult, -⟩
  · exact hfalse.elim
  · exact hresult.symm

end Compiler

end DocQuery
