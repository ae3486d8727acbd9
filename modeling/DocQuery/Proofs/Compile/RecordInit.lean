import DocQuery.Proofs.Compile.Caches
import DocQuery.Proofs.Compile.Hygiene
import DocQuery.Proofs.Expr.RecordInit

/-!
# Records on both paths

A record whose fields are set to constants is compiled in two ways. In a body it becomes an object
of the fields that were set. Elsewhere it is evaluated, starting from the defaults of all fields,
and becomes one literal, without the fields that are left out at their defaults. The objects differ,
but both are read as the evaluated record, where types of one name are one type.

## Key results

- `Compiler.lower_recordInit`: both objects are read as the evaluated record
-/

namespace DocQuery

open Sequence (collect forall₂_of_collect)

variable {names : Naming} {settings : Settings}

/-! ## Compiling both ways -/

namespace Compiler

variable {c : Compiler} {r : RecordType} {bindings : List (String × Expr)}
  {data : List (String × Datum)} {cache : ConverterCache}

/-- A value that is kept becomes a literal of what its converter writes of it. -/
theorem run_literal (hengine : c.engine = .ofSettings settings) {t : Ty} (ht : t.Named names)
    {v : Value} {d : Datum} (hv : v.Named names) {converter : Converter}
    (hbuild : Factory.build (Factory.defaults settings) t = .ok converter)
    (hwrite : converter.write settings v = .ok d) (scope : Scope)
    (hcache : cache.Agrees names c.engine.chain) :
    ∃ after : ConverterCache, after.Agrees names c.engine.chain ∧
      (c.literal v t).run ⟨scope, cache⟩ = (.ok (.literal d), ⟨scope, after⟩) := by
  -- The cache left by the encoder is the one left by the literal.
  obtain ⟨after, hrun, hafter, -⟩ := Engine.encode_follows ConverterCache.knows_agrees
    (defaults_needsComponents hengine) ht hv cache hcache
  -- The compiler's engine is the default one, so the converter is that of the default chain.
  have hbuild : Factory.build c.engine.chain t = .ok converter := by
    rw [hengine]
    exact hbuild
  have hwrite : converter.encode (Factory.build c.engine.chain) v = .ok d := by
    rw [hengine]
    exact hwrite
  have hencode : (c.engine.encode t v).run cache = (.ok d, after) := by
    rw [hrun, hbuild]
    exact congrArg (·, after) hwrite
  refine ⟨after, hafter, ?_⟩
  -- A session leaves the scope as it is.
  have hsession : (Lowering.ofSession (c.engine.encode t v)).run ⟨scope, cache⟩ =
      (.ok d, ⟨scope, after⟩) := by
    rw [Lowering.run_ofSession, hencode]
  exact Lowering.run_bind_ok hsession _

/-- The document name of a declared field is found by `fieldName`, and not reported as missing. -/
theorem run_fieldName (hengine : c.engine = .ofSettings settings) (hr : (Ty.record r).Named names)
    {converters : List Converter}
    (hbuild : Factory.build (Factory.defaults settings) (.record r) =
      .ok (.record r converters))
    {name : String} {field : Field} (hfield : r.field? name = some field) (scope : Scope)
    (hcache : cache.Agrees names c.engine.chain) :
    ∃ after : ConverterCache, after.Agrees names c.engine.chain ∧
      (Lowering.ofSession (c.engine.fieldName (.record r) name)).attempt.run ⟨scope, cache⟩ =
        (.ok (.ok field.wireName), ⟨scope, after⟩) := by
  -- The engine's chain is the default one, which `hbuild` is about.
  have hbuild : Factory.build c.engine.chain (.record r) = .ok (.record r converters) := by
    rw [hengine]
    exact hbuild
  obtain ⟨after, hrun, hafter, -⟩ :=
    Engine.fieldName_follows_of_field? ConverterCache.knows_agrees
      (defaults_needsComponents hengine) hr hbuild hfield cache hcache
  refine ⟨after, hafter, ?_⟩
  rw [Lowering.run_attempt, Lowering.run_ofSession, hrun]

/-- Bindings to constants are compiled by `compileBindings` to the literals of what is written of
    them. -/
theorem run_compileBindings (hengine : c.engine = .ofSettings settings)
    (hr : (Ty.record r).Named names) {converters : List Converter}
    (hbuild : Factory.build (Factory.defaults settings) (.record r) =
      .ok (.record r converters))
    (hsets : List.Forall₂ (Factory.Sets names settings r) bindings data) (e : Expr) (scope : Scope)
    (hcache : cache.Agrees names c.engine.chain) :
    ∃ after : ConverterCache, after.Agrees names c.engine.chain ∧
      (c.compileBindings e (.record r) (lowerBindings c bindings)).run ⟨scope, cache⟩ =
        (.ok (data.map fun m => (m.1, .literal m.2)), ⟨scope, after⟩) := by
  induction hsets generalizing cache with
  | nil =>
    rw [lowerBindings, compileBindings]
    exact ⟨cache, hcache, rfl⟩
  | @cons binding m bindings data hset hsets ih =>
    obtain ⟨name, e'⟩ := binding
    obtain ⟨key, d⟩ := m
    obtain ⟨field, v, hfound, rfl, rfl, hv, converter, -, hconverter, hwrite, -⟩ := hset
    have hfield : field.type.Named names :=
      hr.at_part (List.mem_map_of_mem (List.mem_of_find?_eq_some hfound))
    -- Each step may build converters; the caches in between agree with the chain as the first does.
    obtain ⟨named, hnamed, hname⟩ := run_fieldName hengine hr hbuild hfound scope hcache
    obtain ⟨written, hwritten, hliteral⟩ :=
      run_literal hengine hfield hv hconverter hwrite scope hnamed
    obtain ⟨after, hafter, hrest⟩ := ih hwritten
    refine ⟨after, hafter, ?_⟩
    -- A constant is a literal in any position.
    have hlower : (c.lower (.constant v field.type) .body).run ⟨scope, named⟩ =
        (.ok (.literal d), ⟨scope, written⟩) := by
      rw [lower]
      exact hliteral
    rw [lowerBindings, compileBindings]
    refine (Lowering.run_bind_ok hname _).trans ?_
    refine (Lowering.run_bind_ok hlower _).trans ?_
    exact Lowering.run_bind_ok hrest _

/-- No parameter is free in bindings to constants, so `fold` does not refuse them. -/
theorem firstParameter_recordInit
    (hsets : List.Forall₂ (Factory.Sets names settings r) bindings data) :
    (Expr.recordInit r bindings).firstParameter = none := by
  rw [Expr.firstParameter, Expr.firstFree]
  -- The value of each binding is a constant, in which no parameter occurs.
  induction hsets with
  | nil => rw [Expr.firstFreeBinding]
  | @cons binding m bindings data hset hsets ih =>
    obtain ⟨name, e⟩ := binding
    obtain ⟨field, v, -, rfl, -⟩ := hset
    rw [Expr.firstFreeBinding, Expr.firstFree, ih]
    rfl

/-- In a body the record is compiled to the object of its bindings, of which `Members.ofList` keeps
    the last one for each name. -/
theorem result_lower_body (hengine : c.engine = .ofSettings settings)
    (hr : (Ty.record r).Named names) {converters : List Converter}
    (hbuild : Factory.build (Factory.defaults settings) (.record r) =
      .ok (.record r converters))
    (hsets : List.Forall₂ (Factory.Sets names settings r) bindings data) (scope : Scope)
    (hcache : cache.Agrees names c.engine.chain) :
    ((c.lower (.recordInit r bindings) .body).run ⟨scope, cache⟩).1 =
      .ok (.mk .makeObj [] ((Members.ofList data).map fun m => (m.1, .literal m.2)) none) := by
  obtain ⟨after, -, hrun⟩ :=
    run_compileBindings hengine hr hbuild hsets (.recordInit r bindings) scope hcache
  rw [lower, if_pos rfl, Lowering.run_bind_ok hrun, ← Members.ofList_map]
  rfl

/-- Elsewhere the record is compiled to the literal of what is written of its value. -/
theorem result_lower_operand (hengine : c.engine = .ofSettings settings)
    (hclient : settings.clientEvaluation = true) (hr : (Ty.record r).Named names)
    {converter : Converter}
    (hbuild : Factory.build (Factory.defaults settings) (.record r) = .ok converter)
    (hsets : List.Forall₂ (Factory.Sets names settings r) bindings data) {record : Value}
    (heval : (Expr.recordInit r bindings).evaluate = .ok record) (hrecord : record.Named names)
    {d : Datum} (hwrite : converter.write settings record = .ok d) (scope : Scope)
    (hcache : cache.Agrees names c.engine.chain) :
    ((c.lower (.recordInit r bindings) .operand).run ⟨scope, cache⟩).1 = .ok (.literal d) := by
  obtain ⟨after, -, hrun⟩ := run_literal hengine hr hrecord hbuild hwrite scope hcache
  have hfolding : (!c.engine.settings.clientEvaluation) = false := by
    rw [hengine, Engine.ofSettings, hclient]
    rfl
  -- The value is not in a body, has no free parameter and may be evaluated on the client.
  rw [lower, if_neg (by decide), fold, firstParameter_recordInit hsets]
  simp only [hfolding, heval]
  exact congrArg Prod.fst hrun

/-- A document is read by the converter of its type, whatever converters are known. -/
theorem result_decode (hengine : c.engine = .ofSettings settings) {t : Ty} (ht : t.Named names)
    {converter : Converter}
    (hbuild : Factory.build (Factory.defaults settings) t = .ok converter) {d : Datum} {v : Value}
    (hread : converter.read settings d = .ok v) (hcache : cache.Agrees names c.engine.chain) :
    ((c.engine.decode t d).run cache).1 = .ok v := by
  rw [hengine] at hcache ⊢
  rw [Engine.decode_eq_read_of_knows ConverterCache.knows_agrees hcache ht, hbuild]
  exact hread

/-- Bindings of which each sets a declared field to a value that is given back have members, by
    `Factory.Sets`. -/
theorem exists_sets (hengine : c.engine = .ofSettings settings) (hr : (Ty.record r).Named names)
    (hbound : ∀ binding ∈ bindings, ∃ field v, r.field? binding.1 = some field ∧
      binding.2 = .constant v field.type ∧ v.Named names ∧ c.engine.GivesBack field.type v) :
    ∃ data, List.Forall₂ (Factory.Sets names settings r) bindings data := by
  -- Induction on the bindings. `hback` says what the member of the front one holds.
  induction bindings with
  | nil => exact ⟨[], .nil⟩
  | cons binding bindings ih =>
    rw [List.forall_mem_cons] at hbound
    obtain ⟨⟨field, v, hfound, hconstant, hv, hback⟩, hrest⟩ := hbound
    have hfield : field.type.Named names :=
      hr.at_part (List.mem_map_of_mem (List.mem_of_find?_eq_some hfound))
    obtain ⟨d, hkeeps⟩ := (Factory.givesBack_iff hfield hv).mp (hengine ▸ hback)
    obtain ⟨data, hdata⟩ := ih hrest
    exact ⟨(field.wireName, d) :: data, .cons ⟨field, v, hfound, hconstant, rfl, hkeeps⟩ hdata⟩

/-- Members go by document names of fields, and every field that is set has one. -/
theorem mem_names_of_sets (hsets : List.Forall₂ (Factory.Sets names settings r) bindings data) :
    (∀ key ∈ data.map Prod.fst, key ∈ r.fields.map Field.wireName) ∧
      ∀ field, (∃ binding ∈ bindings, r.field? binding.1 = some field) →
        field.wireName ∈ data.map Prod.fst := by
  induction hsets with
  | nil => simp
  | @cons binding m bindings data hset hsets ih =>
    obtain ⟨field, v, hfound, -, hname, -⟩ := hset
    rw [List.map_cons, List.forall_mem_cons]
    refine ⟨⟨?_, ih.1⟩, ?_⟩
    · rw [hname]
      exact List.mem_map_of_mem (List.mem_of_find?_eq_some hfound)
    · rintro field' ⟨binding', hbinding', hfound'⟩
      rcases List.mem_cons.mp hbinding' with rfl | hbinding'
      · -- The same name finds the same field, and that field gave the member its name.
        obtain rfl := Option.some.inj (hfound.symm.trans hfound')
        exact hname ▸ .head _
      · exact .tail _ (ih.2 field' ⟨binding', hbinding', hfound'⟩)

/-- In a body, and elsewhere where evaluation on the client is on, a record whose fields are set to
    constants is compiled by `lower` to objects that are read as the record that is evaluated. A
    field that is set more than once holds its last constant in both. -/
theorem lower_recordInit (hengine : c.engine = .ofSettings settings)
    (hclient : settings.clientEvaluation = true) (hr : (Ty.record r).Named names)
    (hnodup : (r.fields.map Field.wireName).Nodup)
    (hreserved : Datum.tagKey ∉ r.fields.map Field.wireName)
    (hbound : ∀ binding ∈ bindings, ∃ field v, r.field? binding.1 = some field ∧
      binding.2 = .constant v field.type ∧ v.Named names ∧ c.engine.GivesBack field.type v)
    (hunbound : ∀ field ∈ r.fields, (∀ binding ∈ bindings, r.field? binding.1 ≠ some field) →
      field.default.Named names ∧ c.engine.GivesBack field.type field.default)
    (scope : Scope) (hcache : cache.Agrees names c.engine.chain) :
    ∃ record bound folded, (Expr.recordInit r bindings).evaluate = .ok record ∧
      ((c.lower (.recordInit r bindings) .body).run ⟨scope, cache⟩).1 =
        .ok (.mk .makeObj [] (bound.map fun m => (m.1, .literal m.2)) none) ∧
      ((c.lower (.recordInit r bindings) .operand).run ⟨scope, cache⟩).1 =
        .ok (.literal (.object folded)) ∧
      ∀ object ∈ [bound, folded], ∀ later : ConverterCache,
        later.Agrees names c.engine.chain →
        ∃ v, ((c.engine.decode (.record r) (.object object)).run later).1 = .ok v ∧
          (v == record) = true := by
  obtain ⟨data, hsets⟩ := exists_sets hengine hr hbound
  obtain ⟨values, heval, hlength, hdrafts⟩ :=
    Factory.evaluateBindings_drafts hnodup hsets (Factory.drafts_defaults r.fields)
  have hdrafts : Factory.Drafts names settings r.fields (Members.ofList data) values := hdrafts
  have hlength : values.length = r.fields.length := hlength.trans (List.length_map _)
  obtain ⟨hnames, hset⟩ := mem_names_of_sets hsets
  -- A field without a member was not set, so that its default is given back.
  have hdefaults : ∀ field ∈ r.fields,
      Members.get? field.wireName (Members.ofList data) = none →
        ∃ d, Factory.Keeps names settings field.type field.default d := by
    intro field hfield hget
    have hfree : ∀ binding ∈ bindings, r.field? binding.1 ≠ some field := by
      intro binding hbinding hfound
      have hmem := Members.mem_names_ofList.mpr (hset field ⟨binding, hbinding, hfound⟩)
      exact Members.notMem_of_get?_eq_none hget hmem
    obtain ⟨hnamed, hback⟩ := hunbound field hfield hfree
    exact (Factory.givesBack_iff (hr.at_part (List.mem_map_of_mem hfield)) hnamed).mp
      (hengine ▸ hback)
  have hkeeps : Factory.KeepsAll names settings r.fields values := hdrafts.keepsAll hdefaults
  obtain ⟨cs, hcs⟩ := Factory.exists_collect_build hlength hkeeps
  have hbuild : Factory.build (Factory.defaults settings) (.record r) = .ok (.record r cs) := by
    rw [Factory.build_record, hcs]
    rfl
  have hcs := forall₂_of_collect hcs
  have heval : (Expr.recordInit r bindings).evaluate = .ok (.record r values) := by
    rw [Expr.evaluate, RecordValue.default, heval]
    rfl
  have hrecord : (Value.record r values).Named names :=
    Factory.named_record_of_keeps hr hlength hkeeps
  -- The folded object is written of the whole record and the other one of its bindings alone.
  obtain ⟨folded, values', hwrite, hread, hsame⟩ :=
    Factory.exists_decodeRecord_of_keeps hcs hnodup hreserved hlength hkeeps
  obtain ⟨values'', hread', hsame'⟩ := hdrafts.exists_read hcs hdefaults hnodup hlength
    (Members.nodup_ofList data)
    fun hmem => hreserved (hnames _ (Members.mem_names_ofList.mp hmem))
  refine ⟨.record r values, Members.ofList data, folded, heval,
    result_lower_body hengine hr hbuild hsets scope hcache,
    result_lower_operand hengine hclient hr hbuild hsets heval hrecord hwrite scope hcache, ?_⟩
  -- Reading gives equal fields, which make equal records of one type.
  have hequal {items : List Value} (h : Value.sameItems items values = true) :
      (Value.record r items == .record r values) = true := by
    show Value.same _ _ = true
    rw [Value.same, Ty.same_refl, h]
    rfl
  intro object hobject later hlater
  simp only [List.mem_cons, List.not_mem_nil, or_false] at hobject
  rcases hobject with rfl | rfl
  · exact ⟨_, result_decode hengine hr hbuild hread' hlater, hequal hsame'⟩
  · exact ⟨_, result_decode hengine hr hbuild hread hlater, hequal hsame⟩

/-! ### A badge -/

/-- A badge of which a level is written once it is reached. -/
def badgeType : RecordType :=
  ⟨"Badge", .declared, [⟨"owner", "o", .string, true, .string ""⟩,
    ⟨"level", "n", .bool, false, .bool false⟩]⟩

/-- The naming in which every record is a badge. -/
def badgeNaming : Naming := ⟨fun name => ⟨name, []⟩, fun _ _ => badgeType⟩

/-- The owner is set twice and the level is not set. -/
def badgeBindings : List (String × Expr) :=
  [("owner", .constant (.string "Ann") .string), ("owner", .constant (.string "Bo") .string)]

/-- The types in `badgeType` are those of `badgeNaming`. -/
theorem named_badgeType : (Ty.record badgeType).Named badgeNaming := by
  refine .intro rfl ?_
  simp only [Ty.components, badgeType, List.map, List.forall_mem_cons]
  exact ⟨.of_leaf rfl trivial, .of_leaf rfl trivial, List.forall_mem_nil _⟩

/-- A text is given back, by any engine of the default chain. -/
theorem givesBack_string (s : String) :
    (Engine.ofSettings settings).GivesBack .string (.string s) := by
  have hstring : Ty.string.Named badgeNaming := .of_leaf rfl trivial
  have hvalue : (Value.string s).Named badgeNaming := .of_leaf rfl trivial
  have hsame : (Value.string s == .string s) = true := by
    show Value.same _ _ = true
    simp [Value.same]
  exact Factory.givesBack_leaf rfl hstring hvalue rfl rfl hsame

/-- Both objects of a badge are read with the owner that was set last and without a level. -/
theorem lower_recordInit_badge :
    (defaultCompiler.engine = .ofSettings {} ∧ ({} : Settings).clientEvaluation = true ∧
      (Ty.record badgeType).Named badgeNaming ∧ (badgeType.fields.map Field.wireName).Nodup ∧
      Datum.tagKey ∉ badgeType.fields.map Field.wireName ∧
      (∀ binding ∈ badgeBindings, ∃ field v, badgeType.field? binding.1 = some field ∧
        binding.2 = .constant v field.type ∧ v.Named badgeNaming ∧
        defaultCompiler.engine.GivesBack field.type v) ∧
      (∀ field ∈ badgeType.fields,
        (∀ binding ∈ badgeBindings, badgeType.field? binding.1 ≠ some field) →
        field.default.Named badgeNaming ∧
          defaultCompiler.engine.GivesBack field.type field.default) ∧
      ConverterCache.empty.Agrees badgeNaming defaultCompiler.engine.chain) ∧
    ∃ record bound folded, (Expr.recordInit badgeType badgeBindings).evaluate = .ok record ∧
      ((defaultCompiler.lower (.recordInit badgeType badgeBindings) .body).run
        ⟨.empty, .empty⟩).1 =
          .ok (.mk .makeObj [] (bound.map fun m => (m.1, .literal m.2)) none) ∧
      ((defaultCompiler.lower (.recordInit badgeType badgeBindings) .operand).run
        ⟨.empty, .empty⟩).1 = .ok (.literal (.object folded)) ∧
      ∀ object ∈ [bound, folded], ∀ later : ConverterCache,
        later.Agrees badgeNaming defaultCompiler.engine.chain →
        ∃ v, ((defaultCompiler.engine.decode (.record badgeType) (.object object)).run later).1 =
          .ok v ∧ (v == record) = true := by
  -- Each condition of `lower_recordInit` in turn, then the theorem.
  have hengine : defaultCompiler.engine = .ofSettings {} := rfl
  have hnodup : (badgeType.fields.map Field.wireName).Nodup := by decide
  have hreserved : Datum.tagKey ∉ badgeType.fields.map Field.wireName := by decide
  have hbound : ∀ binding ∈ badgeBindings, ∃ field v, badgeType.field? binding.1 = some field ∧
      binding.2 = .constant v field.type ∧ v.Named badgeNaming ∧
      defaultCompiler.engine.GivesBack field.type v := by
    -- One goal for each of the two bindings.
    simp only [badgeBindings, List.forall_mem_cons]
    exact ⟨⟨_, .string "Ann", rfl, rfl, .of_leaf rfl trivial, givesBack_string "Ann"⟩,
      ⟨_, .string "Bo", rfl, rfl, .of_leaf rfl trivial, givesBack_string "Bo"⟩,
      List.forall_mem_nil _⟩
  -- Both fields keep their defaults, the bound one as well.
  have hunbound : ∀ field ∈ badgeType.fields,
      (∀ binding ∈ badgeBindings, badgeType.field? binding.1 ≠ some field) →
      field.default.Named badgeNaming ∧
        defaultCompiler.engine.GivesBack field.type field.default := by
    have hbool : Ty.bool.Named badgeNaming := .of_leaf rfl trivial
    have hfalse : (Value.bool false).Named badgeNaming := .of_leaf rfl trivial
    simp only [badgeType, List.forall_mem_cons]
    refine ⟨fun _ => ⟨.of_leaf rfl trivial, givesBack_string ""⟩, fun _ => ⟨hfalse, ?_⟩,
      List.forall_mem_nil _⟩
    have hsame : (Value.bool false == .bool false) = true := by
      show Value.same _ _ = true
      simp [Value.same]
    exact Factory.givesBack_leaf rfl hbool hfalse rfl rfl hsame
  exact ⟨⟨hengine, rfl, named_badgeType, hnodup, hreserved, hbound, hunbound,
    ConverterCache.agrees_empty⟩, lower_recordInit hengine rfl named_badgeType hnodup hreserved
      hbound hunbound .empty ConverterCache.agrees_empty⟩

/-! ### Two types of one name -/

/-- A pair whose field holds anything. -/
def innerPair : RecordType := ⟨"Pair", .declared, [⟨"x", "x", .dynamic, true, .null⟩]⟩

/-- A pair whose field holds a pair of the type `innerPair`. -/
def outerPair : RecordType := ⟨"Pair", .declared, [⟨"x", "x", .record innerPair, true, .null⟩]⟩

/-- The naming that has the inner type only. -/
def pairNaming : Naming := ⟨fun name => ⟨name, []⟩, fun _ _ => innerPair⟩

/-- The types in `innerPair` are those of `pairNaming`. -/
theorem named_innerPair : (Ty.record innerPair).Named pairNaming := by
  refine .intro rfl ?_
  simp only [Ty.components, innerPair, List.map, List.forall_mem_cons]
  exact ⟨Ty.named_dynamic, List.forall_mem_nil _⟩

/-- The converter that the default chain builds for `innerPair`. -/
theorem build_innerPair : Factory.build (Factory.defaults {}) (.record innerPair) =
    .ok (.record innerPair [.dynamic]) := by
  have hfields : collect (Factory.build (Factory.defaults {})) [.dynamic] = .ok [.dynamic] := by
    rw [collect, Factory.build_dynamic]
    rfl
  rw [Factory.build_record]
  exact congrArg (Except.map (Converter.record innerPair)) hfields

/-- A pair whose field of the given name holds a pair of the type `innerPair`. -/
def pairOf (name : String) : RecordType :=
  ⟨"Pair", .declared, [⟨name, name, .record innerPair, true, .null⟩]⟩

variable {member : String}

/-- Types of one name are looked up alike, so what is found for `pairOf` is what is found for
    `innerPair`. -/
theorem find?_pairOf (cache : ConverterCache) :
    cache.find? (.record (pairOf member)) = cache.find? (.record innerPair) := by
  have hsame (t : Ty) : (t == Ty.record (pairOf member)) = (t == Ty.record innerPair) := by
    cases t <;> rfl
  simp only [ConverterCache.find?, hsame]

/-- The converter of `innerPair` is there before that of the outer type is looked up again, and it
    is found for both. -/
theorem resolve_pairOf (member : String) :
    Session.Follows (ConverterCache.Agrees pairNaming (Factory.defaults {}))
    (Factory.resolve (Factory.defaults {}) (.record (pairOf member)))
    (.ok (.record innerPair [.dynamic])) := by
  intro cache hcache
  have hfound {middle : ConverterCache} (hmiddle : middle.Agrees pairNaming (Factory.defaults {}))
      {c : Converter} (hfind : middle.find? (.record innerPair) = some c) :
      c = .record innerPair [.dynamic] := by
    have hbuild := hmiddle.build_of_find? named_innerPair hfind
    exact Except.ok.inj (hbuild.symm.trans build_innerPair)
  cases hfind : cache.find? (.record innerPair) with
  | some c =>
    obtain rfl := hfound hcache hfind
    have hfind : cache.find? (.record (pairOf member)) = some _ := (find?_pairOf cache).trans hfind
    exact ⟨cache, Factory.run_resolve_of_find? hfind, hcache, .refl cache⟩
  | none =>
    -- The converter of the field is added meanwhile, and it is found for the outer type too.
    obtain ⟨middle, hinner, hmiddle, hext, hkept⟩ := Factory.run_resolve
      ConverterCache.knows_agrees (Factory.defaults_needsComponents {}) hcache named_innerPair
    rw [build_innerPair] at hinner
    have hkept : middle.find? (.record (pairOf member)) = some (.record innerPair [.dynamic]) :=
      (find?_pairOf middle).trans (hkept _ build_innerPair)
    have hfirst : (Factory.firstOf (.record (pairOf member))
        (fun child _ => Factory.resolve (Factory.defaults {}) child) (Factory.defaults {})).run
          cache =
            -- The factories before the last one pass a declared record on, and the last one asks
            -- for its field.
            (.ok (some (.record (pairOf member) [.record innerPair [.dynamic]])), middle) := by
      apply Factory.run_firstOf_of_recipe [.primitive, .enum .numeric, .identifier, .time true,
        .binary, .nullable, .list, .map, .grouping, .tuple false, .record .anonymous] rfl
      · simp only [List.forall_mem_cons]
        exact ⟨rfl, rfl, rfl, rfl, rfl, rfl, rfl, rfl, rfl, rfl, rfl, List.forall_mem_nil _⟩
      · exact Recipe.run_require_of_ok hinner _
    have hfind : cache.find? (.record (pairOf member)) = none := (find?_pairOf cache).trans hfind
    refine ⟨middle, ?_, hmiddle, hext⟩
    rw [Factory.run_resolve_of_find?_eq_none hfind, Session.run_bind_ok hfirst]
    exact Factory.run_findOrAdd_of_find? hkept

/-- The outer pair has the converter of the inner one, as any `pairOf`. -/
theorem resolve_outerPair : Session.Follows (ConverterCache.Agrees pairNaming (Factory.defaults {}))
    (Factory.resolve (Factory.defaults {}) (.record outerPair))
    (.ok (.record innerPair [.dynamic])) :=
  resolve_pairOf "x"

/-- A pair of the inner type that holds nothing. -/
def pair : Value := .record innerPair [.null]

/-- The field of the outer pair is set to `pair`. -/
def pairBindings : List (String × Expr) := [("x", .constant pair (.record innerPair))]

/-- A pair of the inner type is read from whatever its member is read as. -/
theorem read_innerPair {d : Datum} {v : Value} (h : Converter.dynamic.read {} d = .ok v) :
    (Converter.record innerPair [.dynamic]).read {} (.object [("x", d)]) =
      .ok (.record innerPair [v]) := by
  have htag : (Datum.object [("x", d)]).tag? = none :=
    Converter.tag?_object_eq_none (by simp [Datum.tagKey])
  -- The one member is that of the one field.
  have hplace : innerPair.fieldByWireName? "x" = some (0, ⟨"x", "x", .dynamic, true, .null⟩) := rfl
  have hfields : Converter.decodeFields innerPair [Converter.dynamic.read {}]
      (RecordValue.default innerPair) [("x", d)] = .ok ⟨innerPair, [v]⟩ := by
    rw [Converter.decodeFields, hplace]
    simp only [List.getElem?_cons_zero, h]
    rfl
  rw [Converter.read_record, List.map, List.map, Converter.decodeRecord, htag,
    if_neg (by decide), hfields]
  rfl

/-- The value `pair` alone is given back. -/
theorem keeps_pair :
    Factory.Keeps pairNaming {} (.record innerPair) pair (.object [("x", .null)]) := by
  have hpair : pair.Named pairNaming := by
    refine .intro named_innerPair ?_
    simp only [pair, Value.parts, List.forall_mem_cons]
    exact ⟨.of_leaf rfl trivial, List.forall_mem_nil _⟩
  refine ⟨hpair, _, pair, build_innerPair, ?_, read_innerPair Converter.read_dynamic_null, ?_⟩
  · -- The field is not left out, though null is its default.
    have hself : (Ty.record innerPair == .record innerPair) = true := Ty.same_refl _
    rw [pair, Converter.write_record, Converter.encodeRecord, if_pos hself]
    simp only [innerPair, List.map, Converter.encodeFields, Converter.emits,
      Converter.write_dynamic_null]
    rfl
  · show Value.same _ _ = true
    simp [pair, Value.same, Value.sameItems, Ty.same]

/-- The converter of `innerPair` reads a map where the outer type has a pair. -/
theorem read_outerPair : (Converter.record innerPair [.dynamic]).read {}
    (.object [("x", .object [("x", .null)])]) = .ok (.record innerPair [.map [("x", .null)]]) := by
  -- The member holds a document without tag, which is inferred to be a map.
  have hmap : Factory.build (Factory.defaults {}) (.map .dynamic) =
      .ok (.map (.map .dynamic) .dynamic) := by
    rw [Factory.build_map, Factory.build_dynamic]
    rfl
  have htag : (Datum.object [("x", .null)]).tag? = none :=
    Converter.tag?_object_eq_none (by simp [Datum.tagKey])
  refine read_innerPair ?_
  rw [Converter.read_dynamic, Datum.inferType, htag]
  show Factory.build (Factory.defaults {}) (.map .dynamic) >>= _ = _
  -- Its one entry is null, and stays so.
  rw [hmap]
  show Converter.read {} _ _ = _
  rw [Converter.read_map, Converter.decodeMap, htag, if_neg (by decide)]
  simp only [Converter.decodeEntries, Converter.read_dynamic_null]
  rfl

/-- The outer pair is compiled to an object of the pair that it is set to. -/
theorem lower_outerPair :
    ((defaultCompiler.lower (.recordInit outerPair pairBindings) .body).run
      ⟨.empty, .empty⟩).1 =
        .ok (.mk .makeObj [] [("x", .literal (.object [("x", .null)]))] none) := by
  have hengine : defaultCompiler.engine = .ofSettings {} := rfl
  obtain ⟨hpair, converter, -, hbuild, hwrite, -⟩ := keeps_pair
  -- The steps for the one binding: the record's converter, the literal, the field's name.
  obtain ⟨named, hresolve, hnamed, -⟩ := resolve_outerPair .empty ConverterCache.agrees_empty
  obtain ⟨after, -, hliteral⟩ :=
    run_literal hengine named_innerPair hpair hbuild hwrite .empty hnamed
  have hfieldName : (defaultCompiler.engine.fieldName (.record outerPair) "x").run .empty =
      (.ok "x", named) :=
    Session.run_bind_ok hresolve _
  have hname : (Lowering.ofSession
      (defaultCompiler.engine.fieldName (.record outerPair) "x")).attempt.run ⟨.empty, .empty⟩ =
        (.ok (.ok "x"), ⟨.empty, named⟩) := by
    rw [Lowering.run_attempt, Lowering.run_ofSession, hfieldName]
  -- The binding is compiled from these runs, in their order.
  have hmembers : (defaultCompiler.compileBindings (.recordInit outerPair pairBindings)
      (.record outerPair) (lowerBindings defaultCompiler pairBindings)).run ⟨.empty, .empty⟩ =
        (.ok [("x", .literal (.object [("x", .null)]))], ⟨.empty, after⟩) := by
    rw [pairBindings, lowerBindings, lowerBindings, compileBindings, lower]
    refine (Lowering.run_bind_ok hname _).trans ?_
    exact (Lowering.run_bind_ok hliteral _).trans rfl
  rw [lower, if_pos rfl, Lowering.run_bind_ok hmembers]
  rfl

/-- Where two types have one name the object of the record may be read as another record: the
    converter of the type that was resolved first serves both, and `outerPair` is read as an
    `innerPair`. -/
theorem not_lower_recordInit_decodes :
    (({} : Settings).clientEvaluation = true ∧ (outerPair.fields.map Field.wireName).Nodup ∧
      Datum.tagKey ∉ outerPair.fields.map Field.wireName ∧
      (∀ binding ∈ pairBindings, ∃ field v, outerPair.field? binding.1 = some field ∧
        binding.2 = .constant v field.type ∧ defaultCompiler.engine.GivesBack field.type v) ∧
      ∀ field ∈ outerPair.fields, ∃ binding ∈ pairBindings,
        outerPair.field? binding.1 = some field) ∧
    ∃ v, (Expr.recordInit outerPair pairBindings).evaluate = .ok (.record outerPair [pair]) ∧
      ((defaultCompiler.lower (.recordInit outerPair pairBindings) .body).run
        ⟨.empty, .empty⟩).1 =
          .ok (.mk .makeObj [] [("x", .literal (.object [("x", .null)]))] none) ∧
      (defaultCompiler.engine.decode (.record outerPair)
        (.object [("x", .object [("x", .null)])])).answer = .ok v ∧
      (v == .record outerPair [pair]) = false := by
  have hback : defaultCompiler.engine.GivesBack (.record innerPair) pair :=
    (Factory.givesBack_iff named_innerPair keeps_pair.1).mpr ⟨_, keeps_pair⟩
  have hread : Session.Follows (ConverterCache.Agrees pairNaming (Factory.defaults {}))
      (defaultCompiler.engine.decode (.record outerPair) (.object [("x", .object [("x", .null)])]))
      (.ok (.record innerPair [.map [("x", .null)]])) := by
    -- The request for the outer type resolves the inner one on the way, and ends with its
    -- converter.
    rw [← read_outerPair]
    exact resolve_outerPair.bind fun converter _ => converter.decode_follows
      (fun _ hs => Factory.resolve_follows ConverterCache.knows_agrees
        (Factory.defaults_needsComponents {}) hs) _
  obtain ⟨after, hrun, -⟩ := hread .empty ConverterCache.agrees_empty
  refine ⟨⟨rfl, by decide, by decide, ?_, ?_⟩, _, ?_, lower_outerPair, congrArg Prod.fst hrun, ?_⟩
  · simp only [pairBindings, List.forall_mem_cons]
    exact ⟨⟨_, pair, rfl, rfl, hback⟩, List.forall_mem_nil _⟩
  · simp only [outerPair, List.forall_mem_cons]
    exact ⟨⟨_, .head _, rfl⟩, List.forall_mem_nil _⟩
  · simp only [pairBindings, Expr.evaluate, Expr.evaluateBindings]
    rfl
  · show Value.same _ _ = false
    simp [pair, Value.same, Value.sameItems]

end Compiler

end DocQuery
