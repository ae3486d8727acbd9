import DocQuery.Proofs.Codec.Dynamic
import DocQuery.Proofs.Codec.Standard

/-!
# Types in which nothing is declared

Two declared types of one name may share a converter, but a type in which nothing is declared is the
same as itself only. Whatever an engine was asked for before, also with different types of one name,
it writes and reads by such types as the bare default chain does.

## Key results

- `Factory.resolve_keeps`: finding converters keeps what the cache knows of such types
- `Engine.Reaches.encode_eq_write`, `Engine.Reaches.decode_eq_read`: an engine writes and reads that
  way after any requests
-/

namespace DocQuery

open Session (Ensures Keeps Follows)

/-- A session that `Follows` a pure computation keeps the invariant. -/
theorem Session.Follows.keeps {α : Type} {inv : ConverterCache → Prop} {s : Session α}
    {answer : Except Error α} (h : Follows inv s answer) : Keeps inv s := by
  intro cache hcache
  obtain ⟨after, hrun, hafter, -⟩ := h cache hcache
  rw [hrun]
  exact ⟨hafter, fun _ _ => trivial⟩

namespace ConverterCache

variable {chain : List Factory} {cache : ConverterCache} {t : Ty} {c : Converter}

/-- Every entry for a type in which nothing is declared is what the chain builds for the type. Of
    other entries nothing is said: they may be of another type of the same name. -/
def KnowsUndeclared (chain : List Factory) (cache : ConverterCache) : Prop :=
  ∀ entry ∈ cache.entries, entry.1.Named .undeclared → Factory.build chain entry.1 = .ok entry.2

theorem knowsUndeclared_empty : KnowsUndeclared chain .empty := List.forall_mem_nil _

/-- A converter may be added that is what the chain builds or has a declared type in it. -/
theorem KnowsUndeclared.add (h : KnowsUndeclared chain cache)
    (hc : t.Named .undeclared → Factory.build chain t = .ok c) :
    KnowsUndeclared chain (cache.add t c) := by
  intro entry hentry
  rcases List.mem_append.mp hentry with hold | hnew
  · exact h entry hold
  · obtain rfl := List.mem_singleton.mp hnew
    exact hc

/-- What `KnowsUndeclared` says is an invariant for types in which nothing is declared: what is
    found for one is what the chain builds, and adding that keeps it. -/
theorem knows_undeclared : Knows (KnowsUndeclared chain) .undeclared chain := by
  refine ⟨fun {cache t c} hcache ht hfind => ?_, fun hcache _ hbuild => hcache.add fun _ => hbuild⟩
  -- An entry may be found for a type that is only the same, which here means equal.
  obtain ⟨s, hmem, hsame⟩ := mem_of_find? hfind
  obtain rfl := Ty.eq_of_same_undeclared ht hsame
  exact hcache _ hmem ht

end ConverterCache

namespace Factory

variable {chain : List Factory}

/-- Finding the converter of any type keeps what the cache knows of types in which nothing is
    declared. -/
theorem resolve_keeps (hchain : ∀ factory ∈ chain, factory.NeedsComponents) (t : Ty) :
    Keeps (ConverterCache.KnowsUndeclared chain) (resolve chain t) := by
  induction hsize : t.size using Nat.strong_induction_on generalizing t with
  | _ size ih =>
    -- Such a type is found as the chain builds it; the others need the induction on components.
    by_cases ht : t.Named .undeclared
    · exact (resolve_follows ConverterCache.knows_undeclared hchain ht).keeps
    · -- What is added for a type with a declared one in it says nothing of the others.
      refine resolve_ensures_of_components (fun _ _ _ _ => trivial) ?_
        (fun child hsmaller _ => ?_) hchain
        fun factory _ => (factory.recipe t).ends_true.endsFrom
      · exact fun cache c hcache _ => hcache.add fun hnamed => absurd hnamed ht
      · exact ih child.size (hsize ▸ hsmaller) child rfl

end Factory

/-! ## Engines -/

namespace Engine

variable {settings : Settings} {cache : ConverterCache}

/-- Requests lead from the earlier to the later cache, in any number and over any declarations. -/
abbrev Reaches (engine : Engine) : ConverterCache → ConverterCache → Prop :=
  Relation.ReflTransGen fun cache after => ∃ request : Request, engine.serve cache request = after

/-- What a cache of the default chain has after any requests: it `KnowsUndeclared` types and its
    converters are standard. -/
def Sound (settings : Settings) (cache : ConverterCache) : Prop :=
  cache.KnowsUndeclared (Factory.defaults settings) ∧ cache.Standard

/-- Finding a converter keeps the cache `Sound`, and what is found is standard. -/
theorem resolve_sound (t : Ty) :
    Ensures (Sound settings) ((ofSettings settings).resolve t) Converter.Standard := by
  intro cache hcache
  have hknows := Factory.resolve_keeps (Factory.defaults_needsComponents settings) t cache hcache.1
  obtain ⟨hstandard, hresult⟩ := resolve_ensures t cache hcache.2
  exact ⟨⟨hknows.1, hstandard⟩, hresult⟩

/-- What finding converters keeps any requests keep. -/
theorem Reaches.keeps {engine : Engine} {inv : ConverterCache → Prop} {later : ConverterCache}
    (h : engine.Reaches cache later) (hresolve : ∀ t, Keeps inv (engine.resolve t))
    (hcache : inv cache) : inv later := by
  induction h with
  | refl => exact hcache
  | tail _ hstep ih =>
    obtain ⟨request, rfl⟩ := hstep
    exact serve_keeps hresolve ih request

/-- After any requests the cache of an engine of the default chain is `Sound`. -/
theorem Reaches.sound (h : (ofSettings settings).Reaches .empty cache) :
    Sound settings cache :=
  h.keeps (fun t => (resolve_sound t).keeps)
    ⟨ConverterCache.knowsUndeclared_empty, ConverterCache.standard_empty⟩

/-- After any requests an engine writes values that carry no declared types, as types in which
    nothing is declared, by the converters that `Factory.build` gives. -/
theorem Reaches.encode_eq_write (hcache : (ofSettings settings).Reaches .empty cache) {t : Ty}
    (ht : t.Named .undeclared) {v : Value} (hv : v.Named .undeclared) :
    (((ofSettings settings).encode t v).run cache).1 = (do
      let c ← Factory.build (Factory.defaults settings) t
      c.write settings v) :=
  encode_eq_write_of_knows ConverterCache.knows_undeclared hcache.sound.1 ht hv

/-- After any requests an engine reads documents as types in which nothing is declared by the
    converters that `Factory.build` gives. -/
theorem Reaches.decode_eq_read (hcache : (ofSettings settings).Reaches .empty cache) {t : Ty}
    (ht : t.Named .undeclared) (d : Datum) :
    (((ofSettings settings).decode t d).run cache).1 = (do
      let c ← Factory.build (Factory.defaults settings) t
      c.read settings d) :=
  decode_eq_read_of_knows ConverterCache.knows_undeclared hcache.sound.1 ht d

end Engine

end DocQuery
