import DocQuery.Proofs.Compile.FieldAccess
import DocQuery.Proofs.Compile.RecordInit

/-!
# One document name for a field

A field is looked up twice. The compiler goes from the name of the field to the document name, which
it puts into the term that reads the field. The object of a record, from which fields at their
defaults may be missing, is then searched for that name. Where neither names nor document names
repeat, both come to the same field.

## Key results

- `Compiler.encode_record_fields`: what is found in the object of a record by the name of the
  compiler
-/

namespace DocQuery.Compiler

variable {names : Naming} {c : Compiler} {settings : Settings} {r : RecordType} {field : Field}
  {values : List Value} {d : Datum}

/-- The engine writes a record field by field, each by the converter of its type, by
    `encodeFields`. -/
theorem exists_of_encode_record (hengine : c.engine = .ofSettings settings)
    (hr : (Ty.record r).Named names) (hvalues : (Value.record r values).Named names)
    {cache : ConverterCache} (hcache : cache.Agrees names c.engine.chain)
    (h : ((c.engine.encode (.record r) (.record r values)).run cache).1 = .ok d) :
    ∃ converters members, Factory.build (Factory.defaults settings) (.record r) =
        .ok (.record r converters) ∧
      List.Forall₂ (fun t c => Factory.build (Factory.defaults settings) t = .ok c)
        (r.fields.map Field.type) converters ∧
      Converter.encodeFields r.fields (converters.map (Converter.write settings)) values =
        .ok members ∧ d = .object members := by
  rw [hengine] at h hcache
  obtain ⟨converter, hbuild, hwrite⟩ := (Engine.encode_eq_ok_iff hcache hr hvalues).mp h
  -- The value is a record of the very type, so the writer does not refuse it.
  obtain ⟨converters, rfl, hfields⟩ := Factory.exists_of_build_record hbuild
  have hself : (Ty.record r == .record r) = true := Ty.same_refl _
  rw [Converter.write_record, Converter.encodeRecord, if_pos hself] at hwrite
  obtain ⟨members, hmembers, hd⟩ := Sequence.exists_of_map_eq_ok hwrite
  exact ⟨converters, members, hbuild, hfields, hmembers, hd.symm⟩

/-- The engine gives a declared field its document name, by `fieldName`. -/
theorem result_fieldName (hengine : c.engine = .ofSettings settings)
    (hr : (Ty.record r).Named names) {converters : List Converter}
    (hbuild : Factory.build (Factory.defaults settings) (.record r) = .ok (.record r converters))
    (hfield : r.field? field.name = some field) {cache : ConverterCache}
    (hcache : cache.Agrees names c.engine.chain) :
    ((c.engine.fieldName (.record r) field.name).run cache).1 = .ok field.wireName := by
  have hbuild : Factory.build c.engine.chain (.record r) = .ok (.record r converters) := by
    rw [hengine]
    exact hbuild
  obtain ⟨after, hrun, -⟩ := Engine.fieldName_follows_of_field? ConverterCache.knows_agrees
    (defaults_needsComponents hengine) hr hbuild hfield cache hcache
  rw [hrun]

/-- A field of a parameter is compiled to `getField` of its slot under the document name. -/
theorem result_compile_parameter_field (hengine : c.engine = .ofSettings settings)
    (hregistry : c.registry = .empty ∨ c.registry = .defaults) (hr : (Ty.record r).Named names)
    {converter : Converter}
    (hbuild : Factory.build (Factory.defaults settings) (.record r) = .ok converter)
    {name : String} (hfield : r.field? name = some field) {p : Parameter}
    (htype : p.type = .record r) {scope : Scope} {slot : Nat} (hslot : scope.slotOf p = .ok slot)
    {cache : ConverterCache} (hcache : cache.Agrees names c.engine.chain) :
    ∃ access, (Expr.parameter p).field name = .ok access ∧
      ((c.compile access scope).run cache).1 = .ok (.getField (.var slot) field.wireName) := by
  have htype : (Expr.parameter p).type = .record r := htype
  obtain ⟨after, -, hname⟩ := run_wireName? hengine (.inl htype) (htype ▸ hr) hbuild hfield scope
    hcache
  have hslot : ((c.lower (.parameter p) .operand).run ⟨scope, after⟩).1 = .ok (.var slot) := by
    rw [lower]
    show ((do
      let slot ← MonadExcept.ofExcept (scope.slotOf p)
      return Term.var slot : Lowering Term).run ⟨scope, after⟩).1 = _
    rw [hslot]
    rfl
  -- Neither usual registry has members of records, so the access is not taken for one of those.
  obtain ⟨hmember, htemplate⟩ := Registry.lookup_field hregistry r.name name
  have howner : (fieldCallee (.parameter p) name field).owner.key = .record r.name :=
    congrArg Ty.key htype
  refine ⟨_, field_eq_ok (.inl htype) hfield, ?_⟩
  rw [result_compile_member, compileMember, howner]
  simp only [fieldCallee, hmember, htemplate]
  exact result_compileField (fun _ _ h => by cases h) hname hslot

/-- What is found under the document name of a field was written of its value by the converter of
    its type, and nothing is found where `emits` leaves the field out. -/
theorem get?_members (hnodup : (r.fields.map Field.wireName).Nodup) {converters : List Converter}
    (hfields : List.Forall₂ (fun t c => Factory.build (Factory.defaults settings) t = .ok c)
      (r.fields.map Field.type) converters) {members : List (String × Datum)}
    (hmembers : Converter.encodeFields r.fields (converters.map (Converter.write settings)) values =
      .ok members) {index : Nat} (hfield : r.fields[index]? = some field) {value : Value}
    (hvalue : values[index]? = some value) :
    (Members.get? field.wireName members = none ↔
      field.emitDefault = false ∧ (value == field.default) = true) ∧
    ∀ x, Members.get? field.wireName members = some x → ∃ converter,
      Factory.build (Factory.defaults settings) field.type = .ok converter ∧
        converter.write settings value = .ok x := by
  -- Field, converter and value stand at one place of the three lists.
  have htype : (r.fields.map Field.type)[index]? = some field.type := by
    rw [List.getElem?_map, hfield, Option.map_some]
  have hlt : index < (r.fields.map Field.type).length := (List.getElem?_eq_some_iff.mp htype).1
  obtain ⟨converter, hconverter⟩ := exists_getElem?_eq_some hfields.length_eq.symm hlt
  have hbuild := Sequence.related_of_getElem? hfields htype hconverter
  have hwriter : (converters.map (Converter.write settings))[index]? =
      some (converter.write settings) := by
    rw [List.getElem?_map, hconverter, Option.map_some]
  have hfound := Converter.get?_encodeFields hnodup hmembers hfield hwriter hvalue
  rw [← Converter.emits_eq_false]
  by_cases hemits : Converter.emits field value = true
  · rw [if_pos hemits] at hfound
    obtain ⟨x, hwrite, hx⟩ := hfound
    rw [hx, hemits]
    refine ⟨by simp, fun x' hx' => ⟨converter, hbuild, ?_⟩⟩
    obtain rfl := Option.some.inj hx'
    exact hwrite
  · rw [if_neg hemits] at hfound
    rw [hfound]
    exact ⟨by simpa using hemits, fun x hx => by cases hx⟩

/-- Where neither names nor document names of fields repeat, a record is written as an object of
    fields in their order. Under the name that `fieldName` of the engine gives a field, and that a
    compiler puts into the term that reads the field, is found what the engine writes of the field's
    value as a value of the field's type. Nothing is found if, and only if, the field is left out at
    its default and holds it. -/
theorem encode_record_fields (hengine : c.engine = .ofSettings settings)
    (hregistry : c.registry = .empty ∨ c.registry = .defaults) (hr : (Ty.record r).Named names)
    (hnames : (r.fields.map Field.name).Nodup) (hwireNames : (r.fields.map Field.wireName).Nodup)
    (hvalues : (Value.record r values).Named names) (hlength : values.length = r.fields.length)
    {cache : ConverterCache} (hcache : cache.Agrees names c.engine.chain)
    (h : ((c.engine.encode (.record r) (.record r values)).run cache).1 = .ok d) :
    (∃ members, d = .object members ∧
      (members.map Prod.fst).Sublist (r.fields.map Field.wireName)) ∧
    ∀ field ∈ r.fields, ∃ value, (RecordValue.mk r values).get? field.name = some value ∧
      (d.get? field.wireName = none ↔
        field.emitDefault = false ∧ (value == field.default) = true) ∧
      ∀ later : ConverterCache, later.Agrees names c.engine.chain →
        (∀ x, d.get? field.wireName = some x →
          ((c.engine.encode field.type value).run later).1 = .ok x) ∧
        ((c.engine.fieldName (.record r) field.name).run later).1 = .ok field.wireName ∧
        ∀ (p : Parameter) (scope : Scope) (slot : Nat), p.type = .record r →
          scope.slotOf p = .ok slot →
          ∃ access, (Expr.parameter p).field field.name = .ok access ∧
            ((c.compile access scope).run later).1 =
              .ok (.getField (.var slot) field.wireName) := by
  obtain ⟨converters, members, hbuild, hfields, hmembers, rfl⟩ :=
    exists_of_encode_record hengine hr hvalues hcache h
  refine ⟨⟨members, rfl, Converter.sublist_encodeFields hmembers⟩, fun field hmem => ?_⟩
  -- The field and its value stand at one place.
  obtain ⟨index, hindex, hfield⟩ := List.getElem_of_mem hmem
  have hfield : r.fields[index]? = some field := List.getElem?_eq_some_iff.mpr ⟨hindex, hfield⟩
  obtain ⟨value, hvalue⟩ := exists_getElem?_eq_some hlength hindex
  have hlookup := RecordType.field?_eq_some hnames hfield
  obtain ⟨hnone, hsome⟩ := get?_members hwireNames hfields hmembers hfield hvalue
  refine ⟨value, ?_, hnone, fun later hlater => ⟨fun x hx => ?_, ?_, ?_⟩⟩
  · rw [RecordValue.get?, RecordType.fieldIndex?_eq_some hnames hfield]
    exact hvalue
  · -- What was written with the record is what is written of the value alone, at any later time.
    have hfieldType : field.type.Named names := hr.at_part (List.mem_map_of_mem hmem)
    have hfieldValue : value.Named names := hvalues.at_part (List.mem_of_getElem? hvalue)
    rw [hengine] at hlater ⊢
    exact (Engine.encode_eq_ok_iff hlater hfieldType hfieldValue).mpr (hsome x hx)
  · exact result_fieldName hengine hr hbuild hlookup hlater
  · intro p scope slot htype hslot
    exact result_compile_parameter_field hengine hregistry hr hbuild hlookup htype hslot hlater

/-- A badge below the level, which is left out of its document. -/
def firstBadge : Value := .record badgeType [.string "Ann", .bool false]

/-- A parameter that is a badge. -/
def badge : Parameter := ⟨"badge", .record badgeType⟩

/-- The types that `firstBadge` carries are those of `badgeNaming`. -/
theorem named_firstBadge : firstBadge.Named badgeNaming := by
  refine .intro named_badgeType ?_
  simp only [firstBadge, Value.parts, List.forall_mem_cons]
  exact ⟨.of_leaf rfl trivial, .of_leaf rfl trivial, List.forall_mem_nil _⟩

/-- The level of `firstBadge` is left out of its document. -/
theorem encode_firstBadge :
    ((defaultCompiler.engine.encode (.record badgeType) firstBadge).run .empty).1 =
      .ok (.object [("o", .string "Ann")]) := by
  have hstring : Factory.build (Factory.defaults {}) .string = .ok (.leaf .string) :=
    Factory.build_leaf rfl
  have hbool : Factory.build (Factory.defaults {}) .bool = .ok (.leaf .bool) :=
    Factory.build_leaf rfl
  have hfields : Sequence.collect (Factory.build (Factory.defaults {})) [.string, .bool] =
      .ok [.leaf .string, .leaf .bool] := by
    rw [Sequence.collect, Sequence.collect, hstring, hbool]
    rfl
  have hbuild : Factory.build (Factory.defaults {}) (.record badgeType) =
      .ok (.record badgeType [.leaf .string, .leaf .bool]) := by
    rw [Factory.build_record]
    exact congrArg (Except.map (Converter.record badgeType)) hfields
  -- By the bare chain the document can be computed, and the engine writes the same.
  refine (Engine.encode_eq_ok_iff ConverterCache.agrees_empty named_badgeType
    named_firstBadge).mpr ⟨_, hbuild, ?_⟩
  have hself : (Ty.record badgeType == .record badgeType) = true := Ty.same_refl _
  have hlevel : (Value.bool false == .bool false) = true := by
    show Value.same _ _ = true
    simp [Value.same]
  rw [Converter.write_record, firstBadge, Converter.encodeRecord, if_pos hself]
  simp only [badgeType, List.map, Converter.encodeFields, Converter.emits, hlevel,
    Converter.write_leaf]
  rfl

/-- The owner of `firstBadge` is found by the name that the compiler reads it by. -/
theorem encode_record_fields_firstBadge :
    (defaultCompiler.engine = .ofSettings {} ∧
      (defaultCompiler.registry = .empty ∨ defaultCompiler.registry = .defaults) ∧
      (Ty.record badgeType).Named badgeNaming ∧ (badgeType.fields.map Field.name).Nodup ∧
      (badgeType.fields.map Field.wireName).Nodup ∧ firstBadge.Named badgeNaming ∧
      ConverterCache.empty.Agrees badgeNaming defaultCompiler.engine.chain ∧
      ((defaultCompiler.engine.encode (.record badgeType) firstBadge).run .empty).1 =
        .ok (.object [("o", .string "Ann")])) ∧
    (Datum.object [("o", .string "Ann")]).get? "o" = some (.string "Ann") ∧
    ((defaultCompiler.engine.fieldName (.record badgeType) "owner").run .empty).1 = .ok "o" ∧
    ∃ access, (Expr.parameter badge).field "owner" = .ok access ∧
      ((defaultCompiler.compile access ⟨[(badge, 1)], 2⟩).run .empty).1 =
        .ok (.getField (.var 1) "o") := by
  have hregistry : defaultCompiler.registry = .empty ∨ defaultCompiler.registry = .defaults :=
    .inr rfl
  have hnames : (badgeType.fields.map Field.name).Nodup := by decide
  have hwireNames : (badgeType.fields.map Field.wireName).Nodup := by decide
  obtain ⟨-, hfields⟩ := encode_record_fields rfl hregistry named_badgeType hnames hwireNames
    named_firstBadge rfl ConverterCache.agrees_empty encode_firstBadge
  -- Of the two fields only the first is written, as `o`.
  obtain ⟨value, -, -, hlater⟩ := hfields _ (.head _)
  obtain ⟨-, hname, hcompiled⟩ := hlater .empty ConverterCache.agrees_empty
  exact ⟨⟨rfl, hregistry, named_badgeType, hnames, hwireNames, named_firstBadge,
    ConverterCache.agrees_empty, encode_firstBadge⟩, rfl, hname, hcompiled badge _ 1 rfl rfl⟩

/-- Where two types have one name the converter of the type that was resolved first serves both: a
    pair of `pairOf` is written under the document name of the other pair's field, and its own field
    has no name. -/
theorem not_encode_record_fields :
    ((pairOf "first").fields.map Field.name).Nodup ∧
    ((pairOf "first").fields.map Field.wireName).Nodup ∧
    (defaultCompiler.engine.encode (.record (pairOf "first"))
      (.record (pairOf "first") [.null])).answer = .ok (.object [("x", .null)]) ∧
    (defaultCompiler.engine.fieldName (.record (pairOf "first")) "first").answer =
      .error (.argument (.noMember "Pair" "first")) ∧
    (Datum.object [("x", .null)]).get? "first" = none := by
  -- Resolving the type finds the converter of the pair inside it, which has the same name.
  obtain ⟨after, hresolve, -⟩ := resolve_pairOf "first" .empty ConverterCache.agrees_empty
  refine ⟨by decide, by decide, ?_, ?_, by decide⟩
  · have hrun : (defaultCompiler.engine.encode (.record (pairOf "first"))
        (.record (pairOf "first") [.null])).run .empty = (.ok (.object [("x", .null)]), after) :=
      (Session.run_bind_ok hresolve _).trans rfl
    exact congrArg Prod.fst hrun
  · have hrun : (defaultCompiler.engine.fieldName (.record (pairOf "first")) "first").run .empty =
        (.error (.argument (.noMember "Pair" "first")), after) :=
      (Session.run_bind_ok hresolve _).trans rfl
    exact congrArg Prod.fst hrun

end DocQuery.Compiler
