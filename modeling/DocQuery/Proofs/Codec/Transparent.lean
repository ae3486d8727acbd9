import DocQuery.Proofs.Codec.Cache

/-!
# The cache cannot be seen

Whatever was asked of an engine before, it answers a request as the bare chain of its factories
does. A converter that was found once stays the converter of its type, and a type without a
converter never gets into the cache.

## Key results

- `Factory.defaults_needsComponents`: the factories of the default chain need only components
- `Engine.Leads.agrees`: the cache of an engine agrees with its chain after every run of requests
- `Engine.resolve_transparent`: an engine answers as its chain without a cache
-/

namespace DocQuery

/-! ## The default factories -/

namespace Recipe

variable {t : Ty}

/-- A recipe may `require` a component, if the rest of it needs only components. -/
theorem needsComponents_require {child : Ty} (smaller : child.size < t.size)
    {next : Converter → Recipe t} (hchild : child.Component t)
    (hnext : ∀ c, (next c).NeedsComponents) : (require child smaller next).NeedsComponents := by
  -- A component that has no converter ends the recipe, which then needs nothing more.
  refine ⟨hchild, fun found => ?_⟩
  cases found with
  | ok c => exact hnext c
  | error e => trivial

/-- A recipe may `requireAll` of several components, if the rest of it needs only components. -/
theorem needsComponents_requireAll {children : List Ty}
    (smaller : ∀ child ∈ children, child.size < t.size) {next : List Converter → Recipe t}
    (hchildren : ∀ child ∈ children, child.Component t)
    (hnext : ∀ cs, (next cs).NeedsComponents) :
    (requireAll children smaller next).NeedsComponents := by
  induction children generalizing next with
  | nil => exact hnext []
  | cons child rest ih =>
    rw [requireAll]
    refine needsComponents_require _ (hchildren child (.head _)) fun c => ?_
    exact ih _ (fun child hchild => hchildren child (.tail _ hchild)) fun cs => hnext (c :: cs)

end Recipe

namespace Factory

private theorem component_of_mem {child t : Ty} (h : child ∈ t.components) : child.Component t :=
  .single h

/-- The `tuple` factory asks for the items of a tuple. -/
theorem tuple_needsComponents (encodes : Bool) : (tuple encodes).NeedsComponents := by
  intro t
  cases t with
  | tuple items =>
    -- The empty tuple is not served, and asks for nothing.
    cases items with
    | nil => trivial
    | cons item items =>
      exact Recipe.needsComponents_requireAll _ (fun _ h => component_of_mem h) fun _ => trivial
  | _ => trivial

/-- A `record` factory asks for the types of the fields of a record of its kind. -/
theorem record_needsComponents (kind : RecordKind) : (record kind).NeedsComponents := by
  intro t
  cases t with
  | record r =>
    -- Records of another kind are passed.
    show (if r.kind = kind then recordRecipe r else .pass).NeedsComponents
    split
    · exact Recipe.needsComponents_requireAll _ (fun _ h => component_of_mem h) fun _ => trivial
    · trivial
  | _ => trivial

/-- The `grouping` factory asks for the types of keys and values. -/
theorem grouping_needsComponents : grouping.NeedsComponents := by
  intro t
  cases t with
  | grouping key value =>
    refine Recipe.needsComponents_require _ (component_of_mem (.head _)) fun _ => ?_
    exact Recipe.needsComponents_require _ (component_of_mem (.tail _ (.head _))) fun _ => trivial
  | _ => trivial

/-- The factories of `defaults` find only the converters of components. -/
theorem defaults_needsComponents (settings : Settings) :
    ∀ factory ∈ defaults settings, factory.NeedsComponents := by
  simp only [defaults, List.forall_mem_cons]
  refine ⟨?_, ?_, ?_, ?_, ?_, ?_, ?_, ?_, grouping_needsComponents, tuple_needsComponents _,
    record_needsComponents _, record_needsComponents _, ?_, List.forall_mem_nil _⟩
  -- The others answer one kind of type with no or one component, and pass on the rest.
  all_goals
    intro t
    cases t
    all_goals first
      | trivial
      | exact Recipe.needsComponents_require _ (component_of_mem (.head _)) fun _ => trivial

end Factory

/-! ## Runs of requests -/

namespace Engine

/-- What may be asked of an engine: a converter, a document of a value, or a value of a document. -/
inductive Request where
  | resolve (t : Ty)
  | encode (t : Ty) (v : Value)
  | decode (t : Ty) (d : Datum)

/-- The type of a request and the types that its value carries are types over the naming. A document
    carries no declared types, so `decode` asks nothing of it. -/
def Request.Named (names : Naming) : Request → Prop
  | resolve t => t.Named names
  | encode t v => t.Named names ∧ v.Named names
  | decode t _ => t.Named names

/-- The cache that a request leaves, whether it was answered or refused. -/
def serve (engine : Engine) (cache : ConverterCache) : Request → ConverterCache
  | .resolve t => ((engine.resolve t).run cache).2
  | .encode t v => ((engine.encode t v).run cache).2
  | .decode t d => ((engine.decode t d).run cache).2

/-- Requests over the naming lead from the earlier to the later cache, in any number. -/
abbrev Leads (engine : Engine) (names : Naming) : ConverterCache → ConverterCache → Prop :=
  Relation.ReflTransGen fun cache after =>
    ∃ request : Request, request.Named names ∧ engine.serve cache request = after

variable {engine : Engine} {names : Naming} {inv : ConverterCache → Prop}
  {cache later : ConverterCache}

/-- Finding a converter on an engine follows building it by the bare chain, from every cache with
    the invariant. -/
theorem resolve_follows (hinv : ConverterCache.Knows inv names engine.chain)
    (hchain : ∀ factory ∈ engine.chain, factory.NeedsComponents) {t : Ty} (ht : t.Named names) :
    Session.Follows inv (engine.resolve t) (Factory.build engine.chain t) :=
  Factory.resolve_follows hinv hchain ht

/-- Writing on an engine follows writing by the bare chain, that of dynamic parts included. -/
theorem encode_follows (hinv : ConverterCache.Knows inv names engine.chain)
    (hchain : ∀ factory ∈ engine.chain, factory.NeedsComponents) {t : Ty} (ht : t.Named names)
    {v : Value} (hv : v.Named names) :
    Session.Follows inv (engine.encode t v) (do
      let converter ← Factory.build engine.chain t
      converter.encode (Factory.build engine.chain) v) :=
  (resolve_follows hinv hchain ht).bind fun c _ =>
    c.encode_follows (fun _ hs => resolve_follows hinv hchain hs) hv

/-- Reading on an engine follows reading by the bare chain, that of dynamic parts included. -/
theorem decode_follows (hinv : ConverterCache.Knows inv names engine.chain)
    (hchain : ∀ factory ∈ engine.chain, factory.NeedsComponents) {t : Ty} (ht : t.Named names)
    (d : Datum) :
    Session.Follows inv (engine.decode t d) (do
      let converter ← Factory.build engine.chain t
      converter.decode (Factory.build engine.chain) d) :=
  (resolve_follows hinv hchain ht).bind fun c _ =>
    c.decode_follows (fun _ hs => resolve_follows hinv hchain hs) d

/-- One request keeps the cache in agreement with the chain and only adds to it. Each kind of
    request is a session that follows a pure computation, which leaves such a cache even where it
    fails. -/
theorem serve_agrees (hchain : ∀ factory ∈ engine.chain, factory.NeedsComponents)
    (hcache : cache.Agrees names engine.chain) {request : Request} (h : request.Named names) :
    (engine.serve cache request).Agrees names engine.chain ∧
      (engine.serve cache request).Extends cache := by
  have hinv : ConverterCache.Knows _ names engine.chain := ConverterCache.knows_agrees
  -- Each kind of request follows the chain, and a run that does so leaves such a cache.
  cases request with
  | resolve t =>
    obtain ⟨after, hrun, hafter, hext⟩ := resolve_follows hinv hchain h cache hcache
    rw [serve, hrun]
    exact ⟨hafter, hext⟩
  | encode t v =>
    obtain ⟨after, hrun, hafter, hext⟩ := encode_follows hinv hchain h.1 h.2 cache hcache
    rw [serve, hrun]
    exact ⟨hafter, hext⟩
  | decode t d =>
    obtain ⟨after, hrun, hafter, hext⟩ := decode_follows hinv hchain h d cache hcache
    rw [serve, hrun]
    exact ⟨hafter, hext⟩

/-- A run of requests keeps the cache in agreement with the chain and only adds to it. -/
theorem Leads.agrees (h : engine.Leads names cache later)
    (hchain : ∀ factory ∈ engine.chain, factory.NeedsComponents)
    (hcache : cache.Agrees names engine.chain) :
    later.Agrees names engine.chain ∧ later.Extends cache := by
  induction h with
  | refl => exact ⟨hcache, .refl cache⟩
  | tail _ hstep ih =>
    obtain ⟨request, hrequest, rfl⟩ := hstep
    obtain ⟨hafter, hext⟩ := serve_agrees hchain ih.1 hrequest
    exact ⟨hafter, hext.trans ih.2⟩

/-- After every run of requests, finding the converter of a type answers as building it by the bare
    chain does. A converter that was found keeps its place in the cache, is found for every equal
    type, and at any later time writes every value and reads every document as it does without a
    cache. A type for which `Factory.build` fails is never in the cache. -/
theorem resolve_transparent (hchain : ∀ factory ∈ engine.chain, factory.NeedsComponents)
    (hcache : engine.Leads names .empty cache) {t : Ty} (ht : t.Named names) :
    ∃ after, (engine.resolve t).run cache = (Factory.build engine.chain t, after) ∧
      (∀ c, Factory.build engine.chain t = .ok c →
        ∃ place, ∀ later, engine.Leads names after later →
          (∀ s : Ty, s.Named names → (s == t) = true →
            (engine.resolve s).run later = (.ok c, later) ∧ later.place? s = some place) ∧
          (∀ v : Value, v.Named names → ((c.encode engine.resolve v).run later).1 =
            c.encode (Factory.build engine.chain) v) ∧
          ∀ d, ((c.decode engine.resolve d).run later).1 =
            c.decode (Factory.build engine.chain) d) ∧
      ∀ e, Factory.build engine.chain t = .error e →
        ∀ later, engine.Leads names after later → later.find? t = none := by
  -- The invariant of the runs: every entry is what the bare chain builds.
  have hinv : ConverterCache.Knows _ names engine.chain := ConverterCache.knows_agrees
  have hagrees := (hcache.agrees hchain ConverterCache.agrees_empty).1
  obtain ⟨after, hrun, hafter, -, hfound⟩ := Factory.run_resolve hinv hchain hagrees ht
  refine ⟨after, hrun, fun c hbuild => ?_, fun e hbuild later hlater => ?_⟩
  · -- The place does not change from here on, because later caches only get longer.
    obtain ⟨place, hplace⟩ := ConverterCache.exists_place? (hfound c hbuild)
    refine ⟨place, fun later hlater => ?_⟩
    obtain ⟨hlateragrees, hext⟩ := hlater.agrees hchain hafter
    refine ⟨fun s hs hsame => ?_, fun v hv => ?_, fun d => ?_⟩
    · -- Over one naming equal types are the same, and later caches only have more entries.
      obtain rfl := hs.eq_of_same ht hsame
      have hlaterfound := ConverterCache.find?_of_extends hext (hfound c hbuild)
      exact ⟨Factory.run_resolve_of_find? hlaterfound,
        ConverterCache.place?_of_extends hext hplace⟩
    · obtain ⟨last, hlast, -⟩ :=
        c.encode_follows (fun _ hs => resolve_follows hinv hchain hs) hv later hlateragrees
      rw [hlast]
    · obtain ⟨last, hlast, -⟩ :=
        c.decode_follows (fun _ hs => resolve_follows hinv hchain hs) d later hlateragrees
      rw [hlast]
  · cases hfind : later.find? t with
    | none => rfl
    | some c =>
      -- An entry would be what the chain builds, but it builds nothing.
      have hok := (hlater.agrees hchain hafter).1.build_of_find? ht hfind
      rw [hbuild] at hok
      cases hok

/-- A record with a list of names. -/
def teamType : RecordType := ⟨"Team", .declared, [⟨"names", "names", .list .string, true, .null⟩]⟩

/-- The naming in which every record is a team and no enumeration has a variant. -/
def teamNaming : Naming := ⟨fun name => ⟨name, []⟩, fun _ _ => teamType⟩

/-- What is left of asking for a tuple that has no converter because of its last item: the entries
    for the record and its list of names. -/
def teamCache : ConverterCache :=
  (ofSettings {}).serve .empty (.resolve (.tuple [.record teamType, .tuple []]))

/-- After the failed request that left `teamCache` the engine answers for an option of the first
    item. -/
theorem resolve_transparent_team :
    ((∀ factory ∈ (ofSettings {}).chain, factory.NeedsComponents) ∧
      (ofSettings {}).Leads teamNaming .empty teamCache ∧
      (Ty.option (.record teamType)).Named teamNaming) ∧
    ∃ after, ((ofSettings {}).resolve (.option (.record teamType))).run teamCache =
        (Factory.build (ofSettings {}).chain (.option (.record teamType)), after) ∧
      (∀ c, Factory.build (ofSettings {}).chain (.option (.record teamType)) = .ok c →
        ∃ place, ∀ later, (ofSettings {}).Leads teamNaming after later →
          (∀ s : Ty, s.Named teamNaming → (s == .option (.record teamType)) = true →
            ((ofSettings {}).resolve s).run later = (.ok c, later) ∧
              later.place? s = some place) ∧
          (∀ v : Value, v.Named teamNaming → ((c.encode (ofSettings {}).resolve v).run later).1 =
            c.encode (Factory.build (ofSettings {}).chain) v) ∧
          ∀ d, ((c.decode (ofSettings {}).resolve d).run later).1 =
            c.decode (Factory.build (ofSettings {}).chain) d) ∧
      ∀ e, Factory.build (ofSettings {}).chain (.option (.record teamType)) = .error e →
        ∀ later, (ofSettings {}).Leads teamNaming after later →
          later.find? (.option (.record teamType)) = none := by
  have hchain := Factory.defaults_needsComponents {}
  -- The team and the option of it go by the naming that knows the team.
  have hteam : (Ty.record teamType).Named teamNaming := by
    refine .intro rfl fun child hchild => ?_
    obtain rfl := List.mem_singleton.mp hchild
    exact Ty.named_list.mpr (Ty.named_of_leaf rfl trivial)
  have htuple : (Ty.tuple [.record teamType, .tuple []]).Named teamNaming := by simp [hteam]
  -- One request came before, for a tuple with the team in it.
  have hleads : (ofSettings {}).Leads teamNaming .empty teamCache :=
    .single ⟨.resolve _, htuple, rfl⟩
  have hoption : (Ty.option (.record teamType)).Named teamNaming := Ty.named_option.mpr hteam
  exact ⟨⟨hchain, hleads, hoption⟩, resolve_transparent hchain hleads hoption⟩

end Engine

end DocQuery
