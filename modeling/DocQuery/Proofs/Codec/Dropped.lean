import DocQuery.Proofs.Codec.Build
import DocQuery.Proofs.Codec.Standard

/-!
# Converters that outlive their engine

A converter holds its parts, but dynamic data finds its converters through the engine. Once the
engine is gone, a converter reads and writes as before or tells that the engine is missing, and
without a dynamic part it does not notice. Which converter serves a record type depends on the name
of the type only, so a record type without a dynamic part is served by a converter without one
where such types are named apart from the others.

## Key results

- `Converter.decode_dropped`, `Converter.encode_dropped`: as before, or the engine is missed
- `Converter.decodeWith_static`, `Converter.encodeWith_static`: without dynamic parts, no engine
- `Factory.resolve_static`: static types are served by static converters
- `Engine.dropped_only_dynamic`: what is different once the engine is gone
-/

namespace DocQuery

open Session (Ensures Keeps Follows)

/-! ## Missing the engine -/

/-- What dynamic data is answered with once the engine is gone. -/
def Engine.missing : Error := .conversionNotSupported "Value (engine dropped)"

/-- The later answer is the earlier one, or the engine is missed. -/
def Engine.SameOrMissing {α : Type} (earlier later : Except Error α) : Prop :=
  later = earlier ∨ later = .error missing

open Engine (SameOrMissing)

/-- A session with an engine, from any cache, and the same without the engine. -/
def Lockstep.missing : Lockstep Session (Except Error) where
  Related := fun s later => ∀ cache, SameOrMissing (s.run cache).1 later
  pure := fun _ _ => .inl rfl
  throw := fun _ _ => .inl rfl
  bind := by
    intro α β s later f g h hf cache
    rcases h cache with hlater | hlater
    · rcases hrun : s.run cache with ⟨e | a, middle⟩
      · rw [hrun] at hlater
        rw [Session.run_bind_error hrun, hlater]
        exact .inl rfl
      · rw [hrun] at hlater
        rw [Session.run_bind_ok hrun, hlater]
        exact hf a middle
    · rw [hlater]
      exact .inr rfl

namespace Converter

variable {resolve : Ty → Session Converter}

/-- `decodeDynamic` through an engine and `decodeDynamic` without one are related by
    `Lockstep.missing`. -/
theorem decodeDynamic_dropped (steps : Nat) (d : Datum) :
    Lockstep.missing.Related (decodeDynamic resolve steps d)
      (decodeDynamic Engine.dropped steps d) := by
  cases steps with
  | zero => exact Lockstep.missing.throw _
  | succ steps =>
    rw [decodeDynamic, decodeDynamic]
    refine Lockstep.missing.bind (Lockstep.missing.ofExcept _) fun type => ?_
    split
    · exact Lockstep.missing.pure _
    · -- Without the engine no converter is found for the inferred type.
      exact fun _ => .inr rfl

/-- `decode` without the engine gives what reading with it gives, or misses the engine. -/
theorem decode_dropped (c : Converter) (d : Datum) (cache : ConverterCache) :
    SameOrMissing ((c.decode resolve d).run cache).1 (c.decode Engine.dropped d) :=
  decodeWith_related_of_steps (R := .missing) (decodeDynamic_dropped _) c d cache

/-- `encodeDynamic` through an engine and `encodeDynamic` without one are related by
    `Lockstep.missing`. -/
theorem encodeDynamic_dropped (steps : Nat) (v : Value) :
    Lockstep.missing.Related (encodeDynamic resolve steps v)
      (encodeDynamic Engine.dropped steps v) := by
  cases steps with
  | zero => exact Lockstep.missing.throw _
  | succ steps =>
    rw [encodeDynamic, encodeDynamic]
    -- Null needs no converter, and any other value misses the engine.
    split
    · exact Lockstep.missing.pure _
    · exact fun _ => .inr rfl

/-- `encode` without the engine gives what writing with it gives, or misses the engine. -/
theorem encode_dropped (c : Converter) (v : Value) (cache : ConverterCache) :
    SameOrMissing ((c.encode resolve v).run cache).1 (c.encode Engine.dropped v) :=
  encodeWith_related_of_steps (R := .missing) (fun v _ => encodeDynamic_dropped _ v) c
    (Value.everywhere_of_forall (fun _ => trivial) v) cache

/-! ## Static converters -/

/-- No part of the converter is dynamic. -/
abbrev Static : Converter → Prop := Everywhere parts (· ≠ dynamic)

universe u

variable {m : Type → Type u} [Monad m] [MonadExcept Error m] {c : Converter}

/-- `decodeWith` of a `Static` converter does not depend on how dynamic documents are read. -/
theorem decodeWith_static (h : c.Static) (step step' : Datum → m Value) :
    decodeWith step c = decodeWith step' c := by
  induction h with
  | @intro c top rest ih =>
    cases c with
    | dynamic => exact absurd rfl top
    | tuple type items encodes =>
      have hitems : ∀ c ∈ items, decodeWith step c = decodeWith step' c := ih
      funext d
      rw [decodeWith, decodeWith, decodersWith_eq_map, decodersWith_eq_map,
        List.map_congr_left hitems]
    | record type fields =>
      have hfields : ∀ c ∈ fields, decodeWith step c = decodeWith step' c := ih
      funext d
      rw [decodeWith, decodeWith, decodersWith_eq_map, decodersWith_eq_map,
        List.map_congr_left hfields]
    | grouping type key value =>
      funext d
      rw [decodeWith, decodeWith, ih key (.head _), ih value (.tail _ (.head _))]
    -- One part is read the same way, so the whole is.
    | nullable type inner | list type inner | map type inner =>
      funext d
      rw [decodeWith, decodeWith, ih inner (.head _)]
    -- There are no parts, and the step is not used.
    | leaf | custom =>
      funext d
      rw [decodeWith, decodeWith]

/-- `encodeWith` of a `Static` converter does not depend on how dynamic values are written. -/
theorem encodeWith_static (h : c.Static) (step step' : Value → m Datum) :
    encodeWith step c = encodeWith step' c := by
  induction h with
  | @intro c top rest ih =>
    cases c with
    | dynamic => exact absurd rfl top
    | tuple type items encodes =>
      have hitems : ∀ c ∈ items, encodeWith step c = encodeWith step' c := ih
      funext v
      rw [encodeWith, encodeWith, encodersWith_eq_map, encodersWith_eq_map,
        List.map_congr_left hitems]
    | record type fields =>
      have hfields : ∀ c ∈ fields, encodeWith step c = encodeWith step' c := ih
      funext v
      rw [encodeWith, encodeWith, encodersWith_eq_map, encodersWith_eq_map,
        List.map_congr_left hfields]
    | grouping type key value =>
      -- Keys and values are both written the same way.
      funext v
      rw [encodeWith, encodeWith, ih key (.head _), ih value (.tail _ (.head _))]
    | nullable type inner | list type inner | map type inner =>
      funext v
      rw [encodeWith, encodeWith, ih inner (.head _)]
    | leaf | custom =>
      funext v
      rw [encodeWith, encodeWith]

/-- `decode` of a `Static` converter needs no engine: it gives the same answer without one. -/
theorem decode_static (h : c.Static) (resolve : Ty → Session Converter) (d : Datum)
    (cache : ConverterCache) :
    c.decode Engine.dropped d = ((c.decode resolve d).run cache).1 := by
  -- As the step does not matter, take one that fails alike in a session and without.
  let step : Datum → Session Value := fun _ => throw Engine.missing
  let step' : Datum → Except Error Value := fun _ => throw Engine.missing
  have hsteps : ∀ d, (Lockstep.following fun _ => True).Related (step d) (step' d) :=
    fun _ => .throw _
  obtain ⟨after, hrun, -⟩ := decodeWith_related_of_steps hsteps c d cache trivial
  rw [decode, decode, decodeWith_static h _ step', decodeWith_static h _ step, hrun]

/-- `encode` of a `Static` converter needs no engine: it gives the same answer without one. -/
theorem encode_static (h : c.Static) (resolve : Ty → Session Converter) (v : Value)
    (cache : ConverterCache) :
    c.encode Engine.dropped v = ((c.encode resolve v).run cache).1 := by
  let step : Value → Session Datum := fun _ => throw Engine.missing
  let step' : Value → Except Error Datum := fun _ => throw Engine.missing
  -- The steps are never taken, so any two of them are as good as related.
  have hsteps : ∀ v, Everywhere Value.parts (fun _ => True) v →
      (Lockstep.following fun _ => True).Related (step v) (step' v) :=
    fun _ _ => .throw _
  have hv := Value.everywhere_of_forall (fun _ => trivial) v
  obtain ⟨after, hrun, -⟩ := encodeWith_related_of_steps hsteps c hv cache trivial
  rw [encode, encode, encodeWith_static h _ step', encodeWith_static h _ step, hrun]

end Converter

/-! ## Static types -/

namespace Ty

/-- No part of the type is dynamic. -/
abbrev Static : Ty → Prop := Everywhere components (· ≠ dynamic)

/-- The name of a record type tells whether the type is static. -/
def StaticByName (static : String → RecordKind → Prop) : Ty → Prop
  | record r => (record r).Static ↔ static r.name r.kind
  | _ => True

/-- Record types without a dynamic part are named apart from those with one: the names of the
    former are given. -/
abbrev NamedApart (static : String → RecordKind → Prop) : Ty → Prop :=
  Everywhere components (StaticByName static)

variable {static : String → RecordKind → Prop}

/-- Of types that are the `same`, both are `Static` or none is, if their record types are named
    apart. -/
theorem static_of_same {a b : Ty} (ha : a.NamedApart static) (hb : b.NamedApart static)
    (h : a.same b = true) (hstatic : b.Static) : a.Static := by
  -- The cases are those of the comparison. Where the constructors differ it fails.
  revert ha hb h hstatic
  apply same.induct
    (fun a b => a.NamedApart static → b.NamedApart static → same a b = true → b.Static → a.Static)
    fun as bs => (∀ a ∈ as, a.NamedApart static) → (∀ b ∈ bs, b.NamedApart static) →
      sameItems as bs = true → (∀ b ∈ bs, b.Static) → ∀ a ∈ as, a.Static
  -- Options, lists and maps have one type inside.
  case case14 | case15 | case16 =>
    intro a b ih ha hb h hstatic
    have hinner := ih (ha.at_part (.head _)) (hb.at_part (.head _))
      (by simpa only [same] using h) (hstatic.at_part (.head _))
    exact .intro (fun h => by cases h) (List.forall_mem_singleton.mpr hinner)
  case case17 =>
    intro as bs ih ha hb h hstatic
    exact .intro (fun h => by cases h) (ih (fun a hmem => ha.at_part hmem)
      (fun b hmem => hb.at_part hmem) (by simpa only [same] using h)
      fun b hmem => hstatic.at_part hmem)
  case case18 =>
    intro k v l w ihk ihv ha hb h hstatic
    simp only [same, Bool.and_eq_true] at h
    refine .intro (fun h => by cases h) ?_
    simp only [components, List.forall_mem_cons]
    exact ⟨ihk (ha.at_part (.head _)) (hb.at_part (.head _)) h.1 (hstatic.at_part (.head _)),
      ihv (ha.at_part (.tail _ (.head _))) (hb.at_part (.tail _ (.head _))) h.2
        (hstatic.at_part (.tail _ (.head _))), List.forall_mem_nil _⟩
  -- Of records the parts are not compared, only name and kind; these tell whether the type is
  -- static.
  case case19 =>
    intro r s ha hb h hstatic
    simp only [same, Bool.and_eq_true, beq_iff_eq] at h
    have hr : (record r).Static ↔ static r.name r.kind := ha.at_top
    have hs : (record s).Static ↔ static s.name s.kind := hb.at_top
    rw [hr, h.1, h.2, ← hs]
    exact hstatic
  case case4 | case13 =>
    intro _ _ _ _ _ _
    exact .of_leaf rfl fun h => by cases h
  case case23 =>
    intro a as b bs iha ihas has hbs h hstatic
    rw [List.forall_mem_cons] at has hbs hstatic ⊢
    simp only [sameItems, Bool.and_eq_true] at h
    exact ⟨iha has.1 hbs.1 h.1 hstatic.1, ihas has.2 hbs.2 h.2 hstatic.2⟩
  all_goals simp_all [same, sameItems]

end Ty

/-- Record types that a value carries are named apart. -/
def Value.CarriesNamedApart (static : String → RecordKind → Prop) : Value → Prop
  | record r _ => (Ty.record r).NamedApart static
  | _ => True

/-- All record types that a value carries, at any depth, are named apart. -/
abbrev Value.NamedApart (static : String → RecordKind → Prop) : Value → Prop :=
  Everywhere parts (CarriesNamedApart static)

variable {static : String → RecordKind → Prop}

/-- The `runtimeType` of a value is named apart where the record types that the value carries
    are. -/
theorem Value.NamedApart.runtimeType {v : Value} (h : v.NamedApart static) :
    v.runtimeType.NamedApart static := by
  induction h with
  | @intro v top rest ih =>
    cases v with
    | record r fields => exact top
    | tuple items =>
      rw [Value.runtimeType, runtimeTypes_eq_map]
      refine .intro trivial fun t ht => ?_
      obtain ⟨item, hitem, rfl⟩ := List.mem_map.mp ht
      exact ih item hitem
    -- Lists and maps are taken for lists and maps of anything.
    | list items | map entries =>
      exact .intro trivial (List.forall_mem_singleton.mpr (.of_leaf rfl trivial))
    | grouping groups =>
      rw [Value.runtimeType]
      refine .intro trivial ?_
      simp only [Ty.components, List.forall_mem_cons]
      exact ⟨.of_leaf rfl trivial, .of_leaf rfl trivial, List.forall_mem_nil _⟩
    | _ => exact .of_leaf rfl trivial

/-- Types that documents have by themselves are `NamedApart`: there are no records in them. -/
theorem Ty.Inferable.namedApart {t : Ty} (h : t.Inferable) : t.NamedApart static :=
  h.imp fun t ht => by cases t <;> trivial

/-! ## Static converters in caches -/

/-- Every entry of the cache is for a type whose record types are named apart, and static if the
    type is. -/
def ConverterCache.KeepsStatic (static : String → RecordKind → Prop) (cache : ConverterCache) :
    Prop :=
  ∀ entry ∈ cache.entries, entry.1.NamedApart static ∧ (entry.1.Static → entry.2.Static)

namespace ConverterCache.KeepsStatic

variable {cache : ConverterCache} {t : Ty} {c : Converter}

theorem empty : KeepsStatic static .empty := List.forall_mem_nil _

/-- What `find?` finds for a `Static` type is static, also where another type was built first. -/
theorem of_find? (h : KeepsStatic static cache) (ht : t.NamedApart static) (hstatic : t.Static)
    (hfind : cache.find? t = some c) : c.Static := by
  obtain ⟨s, hmem, hsame⟩ := ConverterCache.mem_of_find? hfind
  -- The entry is for a type that is the same, so it is static too, and then its converter is.
  obtain ⟨hs, hc⟩ := h _ hmem
  exact hc (Ty.static_of_same hs ht hsame hstatic)

/-- `add` keeps static types to static converters. -/
theorem add (h : KeepsStatic static cache) (ht : t.NamedApart static)
    (hc : t.Static → c.Static) : KeepsStatic static (cache.add t c) := by
  intro entry hentry
  rcases List.mem_append.mp hentry with hold | hnew
  · exact h entry hold
  · obtain rfl := List.mem_singleton.mp hnew
    exact ⟨ht, hc⟩

end ConverterCache.KeepsStatic

open ConverterCache (KeepsStatic)

/-- `resolve` of the default chain serves `Static` types by static converters. -/
theorem Factory.resolve_static (settings : Settings) {t : Ty} (ht : t.NamedApart static) :
    Ensures (KeepsStatic static) (resolve (defaults settings) t) fun c => t.Static → c.Static := by
  -- Components are smaller, named apart as well, and static if the type is.
  induction hsize : t.size using Nat.strong_induction_on generalizing t with
  | _ size ih =>
    by_cases hstatic : t.Static
    · have hensures : Ensures (KeepsStatic static) (resolve (defaults settings) t)
          Converter.Static := by
        refine resolve_ensures_of_components ?_ ?_ (fun child hsmaller hchild => ?_)
          (defaults_needsComponents settings) fun factory hfactory =>
            (defaults_ends settings (fun _ _ hc => hc) (fun h => absurd h hstatic.at_top) factory
              hfactory).endsFrom
        · exact fun cache c hcache hfind => hcache.of_find? ht hstatic hfind
        · exact fun cache c hcache hc => hcache.add ht fun _ => hc
        · exact (ih child.size (hsize ▸ hsmaller) (hchild.everywhere ht) rfl).imp
            fun c hc => hc (hchild.everywhere hstatic)
      exact hensures.imp fun c hc _ => hc
    · -- Of a type with a dynamic part nothing is claimed but that the cache stays as it should.
      have hkeeps : Keeps (KeepsStatic static) (resolve (defaults settings) t) := by
        refine resolve_ensures_of_components (fun _ _ _ _ => trivial) ?_
          (fun child hsmaller hchild => ?_) (defaults_needsComponents settings)
          fun factory _ => (factory.recipe t).ends_true.endsFrom
        · exact fun cache c hcache _ => hcache.add ht fun h => absurd h hstatic
        · exact (ih child.size (hsize ▸ hsmaller) (hchild.everywhere ht) rfl).imp
            fun _ _ => trivial
      exact hkeeps.imp fun c _ h => absurd h hstatic

/-! ## Engines -/

namespace Engine

/-- The record types of a request, also those that its value carries, are named apart. -/
def Request.NamedApart (static : String → RecordKind → Prop) : Request → Prop
  | resolve t => t.NamedApart static
  | encode t v => t.NamedApart static ∧ v.NamedApart static
  | decode t _ => t.NamedApart static

variable {settings : Settings} {cache after : ConverterCache}

/-- Requests whose record types are named apart lead from the earlier to the later cache. -/
abbrev LeadsApart (engine : Engine) (static : String → RecordKind → Prop) :
    ConverterCache → ConverterCache → Prop :=
  Relation.ReflTransGen fun cache after =>
    ∃ request : Request, request.NamedApart static ∧ engine.serve cache request = after

/-- `resolve` of an engine keeps static types to static converters in its cache. -/
theorem resolve_keepsStatic {t : Ty} (ht : t.NamedApart static) :
    Keeps (KeepsStatic static) ((ofSettings settings).resolve t) :=
  (Factory.resolve_static settings ht).keeps

/-- `serve` keeps static types to static converters, whatever the request is. -/
theorem serve_keepsStatic (hcache : KeepsStatic static cache) {request : Request}
    (h : request.NamedApart static) :
    KeepsStatic static ((ofSettings settings).serve cache request) := by
  cases request with
  | resolve t => exact (resolve_keepsStatic h cache hcache).1
  | encode t v =>
    -- Writing asks for no other types than those of values named apart.
    have hencode : Keeps (KeepsStatic static) ((ofSettings settings).encode t v) :=
      (resolve_keepsStatic h.1).bind fun c _ =>
        c.encode_keeps (fun _ hv => resolve_keepsStatic (Value.NamedApart.runtimeType hv)) h.2
    exact (hencode cache hcache).1
  | decode t d =>
    -- Reading infers types, and the inferred ones are named apart.
    have hdecode : Keeps (KeepsStatic static) ((ofSettings settings).decode t d) :=
      (resolve_keepsStatic h).bind fun c _ =>
        c.decode_ensures (fun _ ht => resolve_keepsStatic ht.namedApart) d
    exact (hdecode cache hcache).1

/-- Requests whose record types are named apart lead to a cache that `KeepsStatic`. -/
theorem LeadsApart.keepsStatic (h : (ofSettings settings).LeadsApart static .empty cache) :
    KeepsStatic static cache := by
  induction h with
  | refl => exact .empty
  | tail _ hstep ih =>
    obtain ⟨request, hrequest, rfl⟩ := hstep
    exact serve_keepsStatic ih hrequest

/-- Dropping the engine only disables dynamic data. Whatever converter an engine found with
    `resolve`, without the engine `decode` and `encode` answer as with it, from any cache, or the
    engine is missed. They always answer as with the engine if no part of the type is dynamic, where
    record types without a dynamic part were `NamedApart` from those with one in all requests. -/
theorem dropped_only_dynamic {t : Ty} {c : Converter}
    (hresolve : ((ofSettings settings).resolve t).run cache = (.ok c, after)) :
    (∀ d later, SameOrMissing ((c.decode (ofSettings settings).resolve d).run later).1
      (c.decode dropped d)) ∧
    (∀ v later, SameOrMissing ((c.encode (ofSettings settings).resolve v).run later).1
      (c.encode dropped v)) ∧
    ((∃ static, (ofSettings settings).LeadsApart static .empty cache ∧ t.NamedApart static) →
      t.Static →
        (∀ d later, c.decode dropped d =
          ((c.decode (ofSettings settings).resolve d).run later).1) ∧
        ∀ v later, c.encode dropped v =
          ((c.encode (ofSettings settings).resolve v).run later).1) := by
  refine ⟨fun d later => c.decode_dropped d later, fun v later => c.encode_dropped v later, ?_⟩
  rintro ⟨static, hcache, ht⟩ hstatic
  -- Whether the converter was found or built, it is static as the type is.
  have hc : c.Static := by
    have hfound := (Factory.resolve_static settings ht cache hcache.keepsStatic).2
    exact hfound c (congrArg Prod.fst hresolve) hstatic
  exact ⟨fun d later => Converter.decode_static hc _ d later,
    fun v later => Converter.encode_static hc _ v later⟩

/-- A pair whose member may be anything. -/
def anyPair : RecordType := ⟨"Pair", .declared, [⟨"x", "x", .dynamic, true, .null⟩]⟩

/-- The naming of such pairs and of teams. -/
def anyPairNaming : Naming :=
  ⟨fun name => ⟨name, []⟩, fun name _ => if name = "Team" then teamType else anyPair⟩

/-- What is left of asking for such a pair. -/
def anyPairCache : ConverterCache := (ofSettings {}).serve .empty (.resolve (.record anyPair))

theorem named_anyPair : (Ty.record anyPair).Named anyPairNaming :=
  .intro rfl (List.forall_mem_singleton.mpr Ty.named_dynamic)

/-- The pair of anything is built with a dynamic part, and `find?` finds it from then on. -/
theorem run_resolve_anyPair :
    ((ofSettings {}).resolve (.record anyPair)).run .empty =
      (.ok (.record anyPair [.dynamic]), anyPairCache) ∧
    anyPairCache.Agrees anyPairNaming (Factory.defaults {}) ∧
    anyPairCache.find? (.record anyPair) = some (.record anyPair [.dynamic]) := by
  -- The converter that the default chain builds, given that of the one field.
  have hbuild : Factory.build (Factory.defaults {}) (.record anyPair) =
      .ok (.record anyPair [.dynamic]) := by
    have hfields : Sequence.collect (Factory.build (Factory.defaults {})) [.dynamic] =
        .ok [.dynamic] := by
      rw [Sequence.collect, Factory.build_dynamic]
      rfl
    rw [Factory.build_record]
    exact congrArg (Except.map (Converter.record anyPair)) hfields
  -- The first request runs along the chain and leaves its converter in the cache.
  obtain ⟨after, hrun, hafter, -, hfound⟩ := Factory.run_resolve ConverterCache.knows_agrees
    (Factory.defaults_needsComponents {}) ConverterCache.agrees_empty named_anyPair
  obtain rfl : after = anyPairCache := (congrArg Prod.snd hrun).symm
  rw [hbuild] at hrun
  exact ⟨hrun, hafter, hfound _ hbuild⟩

/-- After a pair that may hold anything, a team is served by a converter that needs no engine. -/
theorem dropped_only_dynamic_team : ∃ c after,
    ((ofSettings {}).resolve (.record teamType)).run anyPairCache = (.ok c, after) ∧
    (∀ d later, c.decode dropped d = ((c.decode (ofSettings {}).resolve d).run later).1) ∧
    ∀ v later, c.encode dropped v = ((c.encode (ofSettings {}).resolve v).run later).1 := by
  have hnames : (Ty.list .string).Named anyPairNaming :=
    Ty.named_list.mpr (Ty.named_of_leaf rfl trivial)
  -- The session went on to the team after the pair, with the cache left by that.
  obtain ⟨after, hrun, -⟩ := Factory.run_resolve ConverterCache.knows_agrees
    (Factory.defaults_needsComponents {}) run_resolve_anyPair.2.1
    (t := .record teamType) (.intro rfl (List.forall_mem_singleton.mpr hnames))
  have hbuild : Factory.build (Factory.defaults {}) (.record teamType) =
      .ok (.record teamType [.list (.list .string) (.leaf .string)]) := by
    have hfields : Sequence.collect (Factory.build (Factory.defaults {})) [.list .string] =
        .ok [.list (.list .string) (.leaf .string)] := by
      rw [Sequence.collect, Factory.build_list, Factory.build_leaf rfl]
      rfl
    rw [Factory.build_record]
    exact congrArg (Except.map (Converter.record teamType)) hfields
  -- The converter in the cache is the one that the default chain builds.
  rw [hbuild] at hrun
  -- Of the two types, the team alone is static.
  have hstatic : (Ty.record teamType).Static := by
    refine .intro (fun h => by cases h) (List.forall_mem_singleton.mpr ?_)
    exact .intro (fun h => by cases h)
      (List.forall_mem_singleton.mpr (.of_leaf rfl fun h => by cases h))
  -- One naming has to be good for both types: the name "Team" stands for the static one.
  have hpair : (Ty.record anyPair).NamedApart fun name _ => name = "Team" := by
    refine .intro (iff_of_false (fun h => ?_) (by decide)) ?_
    · exact absurd rfl (h.at_part (.head _)).at_top
    · exact List.forall_mem_singleton.mpr (.of_leaf rfl trivial)
  have hteam : (Ty.record teamType).NamedApart fun name _ => name = "Team" := by
    refine .intro (iff_of_true hstatic rfl) (List.forall_mem_singleton.mpr ?_)
    exact .intro trivial (List.forall_mem_singleton.mpr (.of_leaf rfl trivial))
  exact ⟨_, after, hrun, (dropped_only_dynamic hrun).2.2
    ⟨_, .single ⟨.resolve (.record anyPair), hpair, rfl⟩, hteam⟩ hstatic⟩

/-! ### Two types of one name -/

/-- A pair of the same name whose member is a text. -/
def textPair : RecordType := ⟨"Pair", .declared, [⟨"x", "x", .string, true, .string ""⟩]⟩

/-- The type `textPair` is the same as `anyPair` to the cache, so the converter of that type serves
    it. -/
theorem run_resolve_textPair :
    ((ofSettings {}).resolve (.record textPair)).run anyPairCache =
      (.ok (.record anyPair [.dynamic]), anyPairCache) := by
  -- Records are compared by name and kind, which both pairs share.
  have hsame (t : Ty) : (t == Ty.record textPair) = (t == Ty.record anyPair) := by
    cases t <;> rfl
  have hfind : anyPairCache.find? (.record textPair) = anyPairCache.find? (.record anyPair) := by
    simp only [ConverterCache.find?, hsame]
  exact Factory.run_resolve_of_find? (hfind.trans run_resolve_anyPair.2.2)

/-- A pair that may hold anything reads a text through the engine. -/
theorem decode_anyPair {resolve : Ty → Except Error Converter}
    (h : resolve .string = .ok (.leaf .string)) :
    (Converter.record anyPair [.dynamic]).decode resolve (.object [("x", .string "a")]) =
      .ok (.record anyPair [.string "a"]) := by
  -- The text is of a leaf type, which needs no more than the one request that `h` answers.
  have hstep : ∀ steps, Converter.decodeDynamic resolve (steps + 1) (.string "a") =
      .ok (.string "a") := by
    intro steps
    rw [Converter.decodeDynamic, Datum.inferType]
    show resolve .string >>= _ = _
    rw [h]
    rfl
  -- The record hands on the text under its one field.
  have hfields : Converter.decodeFields anyPair
      [Converter.decodeDynamic resolve ((Datum.object [("x", .string "a")]).depth + 1)]
      (RecordValue.default anyPair) [("x", .string "a")] = .ok ⟨anyPair, [.string "a"]⟩ := by
    show Converter.decodeDynamic resolve _ _ >>= _ = _
    rw [hstep]
    rfl
  show Converter.decodeFields anyPair [Converter.decodeDynamic resolve _] _ _ >>= _ = _
  rw [hfields]
  rfl

/-- Without names told apart, a type without a dynamic part is served by a converter with one, which
    misses the engine where it did not before. -/
theorem not_dropped_identical :
    (Ty.record textPair).Static ∧
    ((ofSettings {}).resolve (.record textPair)).run anyPairCache =
      (.ok (.record anyPair [.dynamic]), anyPairCache) ∧
    (((Converter.record anyPair [.dynamic]).decode (ofSettings {}).resolve
      (.object [("x", .string "a")])).run anyPairCache).1 = .ok (.record anyPair [.string "a"]) ∧
    (Converter.record anyPair [.dynamic]).decode dropped (.object [("x", .string "a")]) =
      .error missing := by
  -- The record of texts is static; the cached converter reads it, and the dropped one does not.
  refine ⟨?_, run_resolve_textPair, ?_, rfl⟩
  · exact .intro (fun h => by cases h)
      (List.forall_mem_singleton.mpr (.of_leaf rfl fun h => by cases h))
  · -- Reading asks for the type of texts while it runs.
    obtain ⟨after, hrun, -⟩ := Converter.decode_follows
      (fun _ hs => Factory.resolve_follows ConverterCache.knows_agrees
        (Factory.defaults_needsComponents {}) hs) (.record anyPair [.dynamic])
      (.object [("x", .string "a")]) anyPairCache run_resolve_anyPair.2.1
    rw [decode_anyPair (Factory.build_leaf rfl)] at hrun
    exact congrArg Prod.fst hrun

end Engine

end DocQuery
