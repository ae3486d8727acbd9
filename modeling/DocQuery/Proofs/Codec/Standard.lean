import DocQuery.Proofs.Codec.Ensures
import DocQuery.Proofs.Codec.Transparent

/-!
# Engines of the default chain have standard converters

The factories of the default chain build standard converters from standard converters, so that the
cache of an engine holds nothing else, whatever the engine is asked for.

## Key results

- `Factory.resolve_ensures_of_components`: what finding converters ensures, one type at a time
- `Factory.defaults_ends`: what holds of all that the default chain builds
- `Factory.resolve_ensures`: finding a converter ensures that it is standard
- `Engine.encode_ensures`: writing ensures that documents have finite numbers
- `Engine.serve_standard`: no request brings a converter from outside into the cache
-/

namespace DocQuery

open Session (Ensures Keeps)

/-! ## Finding converters -/

/-- Given converters of components that satisfy `holds`, the recipe ends with a converter that does,
    if with any. -/
def Recipe.Ends {t : Ty} (holds : Converter → Prop) : Recipe t → Prop
  | .pass | .fail _ => True
  | .done c => holds c
  | .need _ _ next => ∀ found : Except Error Converter, (∀ c, found = .ok c → holds c) →
      (next found).Ends holds

/-- The recipe may be given converters of components that satisfy `given`, and ends with a converter
    that satisfies `holds`, if with any. -/
def Recipe.EndsFrom {t : Ty} (given holds : Converter → Prop) : Recipe t → Prop
  | .pass | .fail _ => True
  | .done c => holds c
  | .need _ _ next => ∀ found : Except Error Converter, (∀ c, found = .ok c → given c) →
      (next found).EndsFrom given holds

namespace Recipe

variable {t : Ty} {given holds : Converter → Prop}

/-- What `Ends` says is `EndsFrom` with one property in both places. -/
theorem Ends.endsFrom {recipe : Recipe t} (h : recipe.Ends holds) :
    recipe.EndsFrom holds holds := by
  induction recipe with
  | need child smaller next ih => exact fun found hfound => ih found (h found hfound)
  | done c => exact h
  | _ => trivial

/-- Asking for one component ends well where the rest of the recipe does for every converter. -/
theorem endsFrom_require {child : Ty} (smaller : child.size < t.size)
    {next : Converter → Recipe t} (hnext : ∀ c, (next c).EndsFrom given holds) :
    (require child smaller next).EndsFrom given holds := by
  intro found _
  cases found with
  | ok c => exact hnext c
  -- Without a converter for the component the recipe fails, which ends it without one.
  | error e => trivial

/-- Asking for several components ends well where the rest of the recipe does for all converters. -/
theorem endsFrom_requireAll {children : List Ty}
    (smaller : ∀ child ∈ children, child.size < t.size) {next : List Converter → Recipe t}
    (hnext : ∀ cs, (next cs).EndsFrom given holds) :
    (requireAll children smaller next).EndsFrom given holds := by
  induction children generalizing next with
  | nil => exact hnext []
  | cons child rest ih =>
    rw [requireAll]
    exact endsFrom_require _ fun c => ih _ fun cs => hnext (c :: cs)

/-- Of `True` there is nothing to show. -/
theorem ends_true (recipe : Recipe t) : recipe.Ends fun _ => True := by
  induction recipe with
  | need child smaller next ih => exact fun found _ => ih found
  | _ => trivial

/-- Asking for one component ends well where the rest of the recipe does for converters that satisfy
    `holds`. -/
theorem ends_require {child : Ty} (smaller : child.size < t.size) {next : Converter → Recipe t}
    (hnext : ∀ c, holds c → (next c).Ends holds) : (require child smaller next).Ends holds := by
  intro found hfound
  cases found with
  | ok c => exact hnext c (hfound c rfl)
  | error e => trivial

/-- Asking for several components ends well where the rest of the recipe does for converters that
    all satisfy `holds`. -/
theorem ends_requireAll {children : List Ty}
    (smaller : ∀ child ∈ children, child.size < t.size) {next : List Converter → Recipe t}
    (hnext : ∀ cs, (∀ c ∈ cs, holds c) → (next cs).Ends holds) :
    (requireAll children smaller next).Ends holds := by
  -- Induction on the children, whose converters `next` gets in a row.
  induction children generalizing next with
  | nil => exact hnext [] (List.forall_mem_nil _)
  | cons child rest ih =>
    rw [requireAll]
    refine ends_require _ fun c hc => ih _ fun cs hcs => hnext (c :: cs) ?_
    rw [List.forall_mem_cons]
    exact ⟨hc, hcs⟩

end Recipe

namespace Factory

variable {inv : ConverterCache → Prop} {given holds : Converter → Prop} {t : Ty}
  {chain : List Factory}

/-- Running a recipe ensures that it ends as `EndsFrom` says, where `resolve` ensures `given` for
    its components. -/
theorem run_ensures {resolve : (child : Ty) → child.size < t.size → Session Converter}
    (h : ∀ child hsmaller, child.Component t → Ensures inv (resolve child hsmaller) given)
    {recipe : Recipe t} (hneeds : recipe.NeedsComponents)
    (hrecipe : recipe.EndsFrom given holds) :
    Ensures inv (recipe.run resolve) fun found => ∀ c, found = some c → holds c := by
  induction recipe with
  -- A recipe that passes or fails comes to no converter, so there is nothing to say of one.
  | pass => exact .pure fun _ hc => by cases hc
  | fail error => exact .throw _
  | done converter => exact .pure fun _ hc => Option.some.inj hc ▸ hrecipe
  | need child hsmaller next ih =>
    obtain ⟨hchild, hnext⟩ := hneeds
    rw [Recipe.run]
    -- A component without a converter is passed on to the rest of the recipe.
    have hfound : Ensures inv
        (tryCatch (Except.ok <$> resolve child hsmaller) fun e => pure (.error e))
        fun found : Except Error Converter => ∀ c, found = .ok c → given c := by
      refine Ensures.tryCatch ?_ fun e => .pure fun _ hc => by cases hc
      exact (h child hsmaller hchild).bind fun c hc => .pure fun _ hc' => Except.ok.inj hc' ▸ hc
    exact hfound.bind fun found hfound => ih found (hnext found) (hrecipe found hfound)

/-- The first answer of a chain has the property where every factory ends with such a converter. -/
theorem firstOf_ensures {resolve : (child : Ty) → child.size < t.size → Session Converter}
    (h : ∀ child hsmaller, child.Component t → Ensures inv (resolve child hsmaller) given)
    (hneeds : ∀ factory ∈ chain, factory.NeedsComponents)
    (hchain : ∀ factory ∈ chain, (factory.recipe t).EndsFrom given holds) :
    Ensures inv (firstOf t resolve chain) fun found => ∀ c, found = some c → holds c := by
  induction chain with
  | nil => exact .pure fun _ hc => by cases hc
  | cons factory rest ih =>
    rw [firstOf]
    have hrun := run_ensures h (hneeds factory (.head _) t) (hchain factory (.head _))
    refine hrun.bind fun found hfound => ?_
    cases found with
    -- The chain stops at the first answer.
    | some c => exact .pure hfound
    | none => exact ih (fun f hf => hneeds f (.tail _ hf)) fun f hf => hchain f (.tail _ hf)

/-- Finding or building a converter ensures `holds` where what is found has it, what has it may be
    added to the cache, and finding the converters of components ensures what recipes may be
    `given`. -/
theorem resolve_ensures_of_components
    (hfound : ∀ cache c, inv cache → cache.find? t = some c → holds c)
    (hadded : ∀ cache c, inv cache → holds c → inv (cache.add t c))
    (hcomponents : ∀ child : Ty, child.size < t.size → child.Component t →
      Ensures inv (resolve chain child) given)
    (hneeds : ∀ factory ∈ chain, factory.NeedsComponents)
    (hchain : ∀ factory ∈ chain, (factory.recipe t).EndsFrom given holds) :
    Ensures inv (resolve chain t) holds := by
  have hadd : ∀ c, holds c → Ensures inv (Session.findOrAdd t c) holds := by
    intro c hc cache hcache
    cases hfind : cache.find? t with
    -- While the converter was built, one for the type may have come into the cache, and that one is
    -- kept.
    | some found =>
      rw [run_findOrAdd_of_find? hfind]
      exact ⟨hcache, fun _ h => Except.ok.inj h ▸ hfound cache found hcache hfind⟩
    | none =>
      rw [run_findOrAdd_of_find?_eq_none hfind]
      exact ⟨hadded cache c hcache hc, fun _ h => Except.ok.inj h ▸ hc⟩
  intro cache hcache
  cases hfind : cache.find? t with
  | some c =>
    rw [run_resolve_of_find? hfind]
    exact ⟨hcache, fun _ h => Except.ok.inj h ▸ hfound cache c hcache hfind⟩
  -- The type is new to the cache, so the chain is asked.
  | none =>
    rw [run_resolve_of_find?_eq_none hfind]
    refine (firstOf_ensures hcomponents hneeds hchain).bind (fun found hbuilt => ?_) cache hcache
    cases found with
    | some c => exact hadd c (hbuilt c rfl)
    | none => exact .throw _

end Factory

/-! ## Default factories -/

namespace Factory

section Ends

variable {node : Converter → Prop}

/-- The `tuple` factory builds of converters with a property everywhere one that has it
    everywhere. -/
theorem tuple_ends (hnode : ∀ c : Converter, c.StandardNode → c ≠ .dynamic → node c)
    (encodes : Bool) (t : Ty) :
    ((tuple encodes).recipe t).Ends (Everywhere Converter.parts node) := by
  cases t with
  | tuple items =>
    -- The empty tuple is not served.
    cases items with
    | nil => trivial
    | cons item items =>
      exact Recipe.ends_requireAll _ fun _ hcs =>
        .intro (hnode _ trivial fun h => by cases h) hcs
  | _ => trivial

/-- A `record` factory builds of converters with a property everywhere one that has it
    everywhere. -/
theorem record_ends (hnode : ∀ c : Converter, c.StandardNode → c ≠ .dynamic → node c)
    (kind : RecordKind) (t : Ty) :
    ((record kind).recipe t).Ends (Everywhere Converter.parts node) := by
  cases t with
  | record r =>
    -- A factory serves the records of its kind.
    show (if r.kind = kind then recordRecipe r else .pass).Ends (Everywhere Converter.parts node)
    split
    · exact Recipe.ends_requireAll _ fun _ hcs =>
        .intro (hnode _ trivial fun h => by cases h) hcs
    · trivial
  | _ => trivial

/-- The `grouping` factory builds of converters with a property everywhere one that has it
    everywhere. -/
theorem grouping_ends (hnode : ∀ c : Converter, c.StandardNode → c ≠ .dynamic → node c) (t : Ty) :
    (grouping.recipe t).Ends (Everywhere Converter.parts node) := by
  cases t with
  | grouping key value =>
    refine Recipe.ends_require _ fun k hk => Recipe.ends_require _ fun c hc => ?_
    refine .intro (hnode _ trivial fun h => by cases h) ?_
    simp only [Converter.parts, List.forall_mem_cons]
    exact ⟨hk, hc, List.forall_mem_nil _⟩
  | _ => trivial

/-- What the factories of `defaults` build of converters with a property everywhere has it
    everywhere, where every node of theirs has it, and the dynamic one if it is asked for. -/
theorem defaults_ends (settings : Settings)
    (hnode : ∀ c : Converter, c.StandardNode → c ≠ .dynamic → node c) {t : Ty}
    (hdynamic : t = .dynamic → node .dynamic) :
    ∀ factory ∈ defaults settings, (factory.recipe t).Ends (Everywhere Converter.parts node) := by
  simp only [defaults, List.forall_mem_cons]
  refine ⟨?_, ?_, ?_, ?_, ?_, ?_, ?_, ?_, grouping_ends hnode t, tuple_ends hnode _ t,
    record_ends hnode _ t, record_ends hnode _ t, ?_, List.forall_mem_nil _⟩
  -- The other factories answer one kind of type each, with a leaf or around one component.
  all_goals
    cases t
    all_goals first
      | trivial
      | exact .of_leaf rfl (hdynamic rfl)
      | exact .of_leaf rfl (hnode _ trivial fun h => by cases h)
      | exact Recipe.ends_require _ fun c hc =>
          .intro (hnode _ trivial fun h => by cases h) (List.forall_mem_singleton.mpr hc)

end Ends

end Factory

/-! ## Standard caches -/

/-- Every converter in the cache is `Standard`. -/
def ConverterCache.Standard (cache : ConverterCache) : Prop :=
  ∀ entry ∈ cache.entries, entry.2.Standard

theorem ConverterCache.standard_empty : ConverterCache.empty.Standard := List.forall_mem_nil _

/-- Finding or building a converter by the chain of `defaults` ensures that it is `Standard`. -/
theorem Factory.resolve_ensures (settings : Settings) (t : Ty) :
    Ensures ConverterCache.Standard (resolve (defaults settings) t) Converter.Standard := by
  -- Components are smaller.
  induction hsize : t.size using Nat.strong_induction_on generalizing t with
  | _ size ih =>
    refine resolve_ensures_of_components ?_ ?_ (fun child hsmaller _ => ?_)
      (defaults_needsComponents settings) fun factory hfactory =>
        (defaults_ends settings (fun _ hc _ => hc) (fun _ => trivial) factory hfactory).endsFrom
    · -- Whatever the type it was entered under, a cached converter is standard by the invariant.
      intro cache c hcache hfind
      obtain ⟨s, hmem, -⟩ := ConverterCache.mem_of_find? hfind
      exact hcache _ hmem
    · intro cache c hcache hc entry hentry
      rcases List.mem_append.mp hentry with hold | hnew
      · exact hcache entry hold
      · obtain rfl := List.mem_singleton.mp hnew
        exact hc
    · exact ih child.size (hsize ▸ hsmaller) child rfl

/-! ## Engines -/

namespace Engine

variable {settings : Settings}

/-- An engine of the default chain finds converters that are `Standard`. -/
theorem resolve_ensures (t : Ty) :
    Ensures ConverterCache.Standard ((ofSettings settings).resolve t) Converter.Standard :=
  Factory.resolve_ensures settings t

/-- An engine of the default chain writes documents with finite numbers, by `WritesFinite`. -/
theorem encode_ensures (t : Ty) (v : Value) :
    Ensures ConverterCache.Standard ((ofSettings settings).encode t v)
      (Converter.WritesFinite v) :=
  (resolve_ensures t).bind fun _ hc => Converter.encode_ensures resolve_ensures hc v

/-- What finding converters keeps every request keeps: `encode` and `decode` touch the cache in no
    other way. -/
theorem serve_keeps {engine : Engine} {inv : ConverterCache → Prop}
    (h : ∀ t, Keeps inv (engine.resolve t)) {cache : ConverterCache} (hcache : inv cache)
    (request : Request) : inv (engine.serve cache request) := by
  cases request with
  | resolve t => exact (h t cache hcache).1
  -- Writing and reading go through the requests that the converter makes while it runs.
  | encode t v =>
    have hencode : Keeps inv (engine.encode t v) := (h t).bind fun c _ =>
      c.encode_keeps (fun v _ => h v.runtimeType) (Value.everywhere_of_forall (fun _ => trivial) v)
    exact (hencode cache hcache).1
  | decode t d =>
    have hdecode : Keeps inv (engine.decode t d) := (h t).bind fun c _ =>
      c.decode_ensures (fun t _ => h t) d
    exact (hdecode cache hcache).1

/-- No request brings a converter from outside into the cache. -/
theorem serve_standard {cache : ConverterCache} (hcache : cache.Standard) (request : Request) :
    ((ofSettings settings).serve cache request).Standard :=
  serve_keeps (fun t => (resolve_ensures t).keeps) hcache request

end Engine

end DocQuery
