import DocQuery.Proofs.Codec.Following
import Mathlib.Logic.Relation

/-!
# The cache of converters

Every entry of a cache is what the chain of factories builds without a cache. Finding or building a
converter keeps this, also where it fails half-way, so it answers as building without a cache does.

## Key results

- `Factory.resolve_follows`: finding a converter follows building it without a cache
- `ConverterCache.find?_of_extends`: what was found is found in every later cache
-/

namespace DocQuery

/-! ## Factories that need only components -/

/-- A type that another type is built from, at any depth. -/
abbrev Ty.Component : Ty → Ty → Prop := Relation.TransGen fun child t => child ∈ t.components

/-- What holds `Everywhere` in a type holds everywhere in its components. -/
theorem Ty.Component.everywhere {holds : Ty → Prop} {child t : Ty} (h : child.Component t)
    (ht : Everywhere Ty.components holds t) : Everywhere Ty.components holds child := by
  induction h using Relation.TransGen.head_induction_on with
  | single hmem => exact ht.at_part hmem
  | head hmem _ ih => exact ih.at_part hmem

/-- A recipe that finds only the converters of component types. -/
def Recipe.NeedsComponents {t : Ty} : Recipe t → Prop
  | .need child _ next => child.Component t ∧ ∀ found, (next found).NeedsComponents
  | _ => True

/-- A factory whose recipes find only the converters of component types. -/
def Factory.NeedsComponents (factory : Factory) : Prop :=
  ∀ t, (factory.recipe t).NeedsComponents

/-! ## Entries -/

namespace ConverterCache

variable {cache later : ConverterCache} {t : Ty} {c : Converter}

/-- What `find?` finds it finds in every later cache. -/
theorem find?_of_extends (h : later.Extends cache) (hfind : cache.find? t = some c) :
    later.find? t = some c := by
  obtain ⟨added, hadded⟩ := h
  rw [find?, Option.map_eq_some_iff] at hfind ⊢
  -- New entries come last, so the first entry for the type is the same one.
  obtain ⟨entry, hentry, rfl⟩ := hfind
  exact ⟨entry, by rw [← hadded, List.find?_append, hentry]; rfl, rfl⟩

/-- `place?` is the same in every later cache. -/
theorem place?_of_extends {place : Nat} (h : later.Extends cache)
    (hplace : cache.place? t = some place) : later.place? t = some place := by
  obtain ⟨added, hadded⟩ := h
  rw [place?] at hplace ⊢
  rw [← hadded, List.findIdx?_append, hplace]
  rfl

/-- What `find?` finds is an entry for an equal type. -/
theorem mem_of_find? (h : cache.find? t = some c) :
    ∃ s, (s, c) ∈ cache.entries ∧ (s == t) = true := by
  rw [find?, Option.map_eq_some_iff] at h
  obtain ⟨⟨s, c⟩, hentry, rfl⟩ := h
  exact ⟨s, List.mem_of_find?_eq_some hentry, by simpa using List.find?_some hentry⟩

/-- What `find?` finds is at a `place?`. -/
theorem exists_place? (h : cache.find? t = some c) : ∃ place, cache.place? t = some place := by
  obtain ⟨s, hmem, hsame⟩ := mem_of_find? h
  rw [← Option.isSome_iff_exists, place?, List.findIdx?_isSome, List.any_eq_true]
  exact ⟨(s, c), hmem, hsame⟩

/-- After `add` the type is found, if it was not there before. -/
theorem find?_add (h : cache.find? t = none) : (cache.add t c).find? t = some c := by
  have hold : cache.entries.find? (fun entry => entry.1 == t) = none := Option.map_eq_none_iff.mp h
  have hsame : (t == t) = true := Ty.same_refl t
  simp [find?, add, List.find?_append, hold, hsame]

/-- `add` does not change what `find?` finds for another type. -/
theorem find?_add_of_ne {s : Ty} (h : (s == t) = false) :
    (cache.add s c).find? t = cache.find? t := by
  simp [find?, add, List.find?_append, h]

theorem find?_congr {s : Ty} (h : ∀ u : Ty, (u == s) = (u == t)) :
    cache.find? s = cache.find? t := by
  simp only [find?, h]

theorem extends_add (cache : ConverterCache) (t : Ty) (c : Converter) :
    (cache.add t c).Extends cache := List.prefix_append _ _

/-- Every entry is for a type over the naming and is what the chain builds for the type. -/
def Agrees (names : Naming) (chain : List Factory) (cache : ConverterCache) : Prop :=
  ∀ entry ∈ cache.entries, entry.1.Named names ∧ Factory.build chain entry.1 = .ok entry.2

variable {names : Naming} {chain : List Factory}

theorem agrees_empty : Agrees names chain .empty := List.forall_mem_nil _

/-- In a cache that `Agrees` with the chain `find?` finds what the chain builds. -/
theorem Agrees.build_of_find? (h : cache.Agrees names chain) (ht : t.Named names)
    (hfind : cache.find? t = some c) : Factory.build chain t = .ok c := by
  obtain ⟨s, hmem, hsame⟩ := mem_of_find? hfind
  obtain ⟨hs, hbuild⟩ := h _ hmem
  -- The entry is for an equal type, which over one naming is the type.
  rw [← hs.eq_of_same ht hsame]
  exact hbuild

/-- A cache that `Agrees` with the chain still does so after `add` of a converter that the chain
    builds. -/
theorem Agrees.add (h : cache.Agrees names chain) (ht : t.Named names)
    (hbuild : Factory.build chain t = .ok c) : (cache.add t c).Agrees names chain := by
  intro entry hentry
  rcases List.mem_append.mp hentry with hold | hnew
  · exact h entry hold
  · obtain rfl := List.mem_singleton.mp hnew
    exact ⟨ht, hbuild⟩

/-- Caches with the invariant know the types over the naming: what is found for such a type is what
    the chain builds for it, and that may be added. -/
structure Knows (inv : ConverterCache → Prop) (names : Naming) (chain : List Factory) : Prop where
  found : ∀ {cache : ConverterCache} {t : Ty} {c : Converter}, inv cache → t.Named names →
    cache.find? t = some c → Factory.build chain t = .ok c
  added : ∀ {cache : ConverterCache} {t : Ty} {c : Converter}, inv cache → t.Named names →
    Factory.build chain t = .ok c → inv (cache.add t c)

/-- Caches that agree with a chain are caches that know its types: `Agrees` is such an invariant. -/
theorem knows_agrees : Knows (Agrees names chain) names chain :=
  ⟨Agrees.build_of_find?, Agrees.add⟩

end ConverterCache

/-! ## Finding and building -/

section Resolve

open Session (Follows)

variable {inv : ConverterCache → Prop} {t : Ty}

/-- `run` of a recipe follows where finding the converters of components does. -/
theorem Recipe.run_follows {resolve : (child : Ty) → child.size < t.size → Session Converter}
    {pureResolve : (child : Ty) → child.size < t.size → Except Error Converter}
    (h : ∀ child hsmaller, child.Component t →
      Follows inv (resolve child hsmaller) (pureResolve child hsmaller))
    {recipe : Recipe t} (hneeds : recipe.NeedsComponents) :
    Follows inv (recipe.run resolve) (recipe.run pureResolve) := by
  induction recipe with
  | pass => exact .pure _
  | fail error => exact .throw _
  | done converter => exact .pure _
  | need child hsmaller next ih =>
    obtain ⟨hchild, hnext⟩ := hneeds
    -- What is found is handed to the recipe as a result, so an error does not end the session.
    rw [run, run]
    have hfound := (h child hsmaller hchild).map (Except.ok : Converter → Except Error Converter)
    exact (hfound.tryCatch fun e => .pure _).bind fun found _ => ih found (hnext found)

/-- `firstOf` follows where finding the converters of components does. -/
theorem Factory.firstOf_follows
    {resolve : (child : Ty) → child.size < t.size → Session Converter}
    {pureResolve : (child : Ty) → child.size < t.size → Except Error Converter}
    (h : ∀ child hsmaller, child.Component t →
      Follows inv (resolve child hsmaller) (pureResolve child hsmaller))
    {chain : List Factory} (hchain : ∀ factory ∈ chain, factory.NeedsComponents) :
    Follows inv (firstOf t resolve chain) (firstOf t pureResolve chain) := by
  induction chain with
  | nil => exact .pure _
  | cons factory rest ih =>
    rw [firstOf, firstOf]
    refine (Recipe.run_follows h (hchain factory (.head _) t)).bind fun found _ => ?_
    -- A factory that passes may have found components on the way; they stay in the cache.
    cases found with
    | some converter => exact .pure _
    | none => exact ih fun f hf => hchain f (.tail _ hf)

/-- `require` in a session goes on with the converter that `resolve` finds. -/
theorem Recipe.run_require_of_ok {resolve : (child : Ty) → child.size < t.size → Session Converter}
    {cache after : ConverterCache} {child : Ty} {smaller : child.size < t.size} {c : Converter}
    (h : (resolve child smaller).run cache = (.ok c, after)) (next : Converter → Recipe t) :
    ((require child smaller next).run resolve).run cache = ((next c).run resolve).run after := by
  have hmap : (Except.ok <$> resolve child smaller : Session (Except Error Converter)).run cache =
      (.ok (.ok c), after) := Session.run_bind_ok h _
  exact Session.run_bind_ok (Session.run_tryCatch_ok hmap _) _

/-- `firstOf` answers what the first factory that does not `pass` answers. -/
theorem Factory.run_firstOf_of_recipe
    {resolve : (child : Ty) → child.size < t.size → Session Converter}
    {cache after : ConverterCache} {chain : List Factory} (before : List Factory)
    {factory : Factory} {rest : List Factory} (hchain : chain = before ++ factory :: rest)
    (hpass : ∀ f ∈ before, f.recipe t = .pass) {c : Converter}
    (h : ((factory.recipe t).run resolve).run cache = (.ok (some c), after)) :
    (firstOf t resolve chain).run cache = (.ok (some c), after) := by
  subst hchain
  -- Induction on the factories that pass.
  induction before with
  | nil =>
    rw [List.nil_append, firstOf]
    exact Session.run_bind_ok h _
  | cons f before ih =>
    rw [List.cons_append, firstOf, hpass f (.head _)]
    exact ih fun g hg => hpass g (.tail _ hg)

end Resolve

namespace Factory

variable {inv : ConverterCache → Prop} {names : Naming} {chain : List Factory}
  {cache after : ConverterCache} {t : Ty} {c : Converter}

/-- `resolve` finds a converter that is in the cache, and nothing is built. -/
theorem run_resolve_of_find? (h : cache.find? t = some c) :
    (resolve chain t).run cache = (.ok c, cache) := by
  rw [resolve, Session.run_get_bind, h]
  rfl

/-- `resolve` takes the converter of a type that is not in the cache from the chain. -/
theorem run_resolve_of_find?_eq_none (h : cache.find? t = none) :
    (resolve chain t).run cache =
      (firstOf t (fun child _ => resolve chain child) chain >>= fun found =>
        match found with
        | some built => Session.findOrAdd t built
        | none => throw (.conversionNotSupported t.text) : Session Converter).run cache := by
  rw [resolve, Session.run_get_bind]
  cases hfind : cache.find? t with
  | some found => cases h.symm.trans hfind
  | none => rfl

/-- `findOrAdd` gives the converter that is there already and drops the one given. -/
theorem run_findOrAdd_of_find? {found : Converter} (h : cache.find? t = some found) :
    (Session.findOrAdd t c).run cache = (.ok found, cache) := by
  rw [Session.findOrAdd, Session.run_get_bind, h]
  rfl

/-- `findOrAdd` adds the converter where there is none. -/
theorem run_findOrAdd_of_find?_eq_none (h : cache.find? t = none) :
    (Session.findOrAdd t c).run cache = (.ok c, cache.add t c) := by
  rw [Session.findOrAdd, Session.run_get_bind, h]
  rfl

/-- After `findOrAdd` the converter that was built is found, unless another one is there already,
    which is equal. -/
theorem run_findOrAdd (hinv : ConverterCache.Knows inv names chain) (hcache : inv cache)
    (ht : t.Named names) (hbuild : build chain t = .ok c) :
    ∃ after, (Session.findOrAdd t c).run cache = (.ok c, after) ∧ inv after ∧
      after.Extends cache ∧ after.find? t = some c := by
  cases hfind : cache.find? t with
  | some found =>
    -- Another request built it meanwhile, from the same chain.
    obtain rfl : found = c := by
      have hfound := hinv.found hcache ht hfind
      rw [hbuild] at hfound
      exact (Except.ok.inj hfound).symm
    exact ⟨cache, run_findOrAdd_of_find? hfind, hcache, .refl cache, hfind⟩
  | none =>
    exact ⟨cache.add t c, run_findOrAdd_of_find?_eq_none hfind, hinv.added hcache ht hbuild,
      cache.extends_add t c, ConverterCache.find?_add hfind⟩

/-- `resolve` answers as `build` does without a cache, and a converter that was found or built is in
    the cache. -/
theorem run_resolve (hinv : ConverterCache.Knows inv names chain)
    (hchain : ∀ factory ∈ chain, factory.NeedsComponents) (hcache : inv cache)
    (ht : t.Named names) :
    ∃ after, (resolve chain t).run cache = (build chain t, after) ∧ inv after ∧
      after.Extends cache ∧ ∀ c, build chain t = .ok c → after.find? t = some c := by
  -- Only components are needed, and they are smaller.
  induction hsize : t.size using Nat.strong_induction_on generalizing t cache with
  | _ size ih =>
    cases hfind : cache.find? t with
    | some c =>
      have hbuild : build chain t = .ok c := hinv.found hcache ht hfind
      rw [hbuild]
      refine ⟨cache, run_resolve_of_find? hfind, hcache, .refl cache, fun c' hc' => ?_⟩
      rw [hfind, Except.ok.inj hc']
    | none =>
      have hchildren : ∀ child (_ : child.size < t.size), child.Component t →
          Session.Follows inv (resolve chain child) (build chain child) := by
        intro child hsmaller hchild start hstart
        obtain ⟨after, hrun, hafter, hext, -⟩ :=
          ih child.size (hsize ▸ hsmaller) hstart (hchild.everywhere ht) rfl
        exact ⟨after, hrun, hafter, hext⟩
      -- The chain follows the bare chain from this cache, and what it built is added after.
      obtain ⟨middle, hrun, hmiddle, hext⟩ := firstOf_follows hchildren hchain cache hcache
      rw [run_resolve_of_find?_eq_none hfind]
      cases hfirst : firstOf t (fun child _ => build chain child) chain with
      -- A failure adds nothing for the type itself, but what was found for its components stays.
      | error e =>
        rw [hfirst] at hrun
        have hbuild : build chain t = .error e := by rw [build, hfirst]; rfl
        rw [hbuild]
        exact ⟨middle, Session.run_bind_error hrun _, hmiddle, hext, fun _ hc => by cases hc⟩
      | ok found =>
        rw [hfirst] at hrun
        rw [Session.run_bind_ok hrun]
        cases found with
        -- Every factory passed, so nothing was built and nothing is added.
        | none =>
          have hbuild : build chain t = .error (.conversionNotSupported t.text) := by
            rw [build, hfirst]; rfl
          rw [hbuild]
          exact ⟨middle, rfl, hmiddle, hext, fun _ hc => by cases hc⟩
        | some built =>
          have hbuild : build chain t = .ok built := by rw [build, hfirst]; rfl
          obtain ⟨after, hadd, hafter, hext', hfound⟩ := run_findOrAdd hinv hmiddle ht hbuild
          rw [hbuild]
          exact ⟨after, hadd, hafter, hext'.trans hext, fun c hc => Except.ok.inj hc ▸ hfound⟩

/-- `resolve` follows `build`. -/
theorem resolve_follows (hinv : ConverterCache.Knows inv names chain)
    (hchain : ∀ factory ∈ chain, factory.NeedsComponents) (ht : t.Named names) :
    Session.Follows inv (resolve chain t) (build chain t) := by
  intro cache hcache
  obtain ⟨after, hrun, hafter, hext, -⟩ := run_resolve hinv hchain hcache ht
  exact ⟨after, hrun, hafter, hext⟩

end Factory

end DocQuery
