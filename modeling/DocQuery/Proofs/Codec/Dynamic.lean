import DocQuery.Proofs.Codec.Build
import DocQuery.Proofs.Codec.Steps
import DocQuery.Proofs.Codec.Transparent

/-!
# Writing and reading by the default chain

Neither the type of a value nor that of a document is dynamic itself unless it is null, so with the
default chain every dynamic step goes down. Writing and reading obey equations in which no bound on
the number of steps comes up.

## Key results

- `Converter.write_dynamic`, `Converter.read_dynamic`: one dynamic step
- `Converter.write_dynamic_list` and the like: what dynamic containers hold is dynamic
- `Converter.write_list` and the like: writing and reading by each kind of converter
- `Engine.encode_eq_write`, `Engine.decode_eq_read`: an engine writes and reads that way
-/

namespace DocQuery

/-! ## Steps that go down -/

namespace Factory

variable {settings : Settings}

/-- What `build` gives is `Guarded` but for options and dynamic values: only their converters pass
    on what they are given. -/
theorem guarded_of_build {t : Ty} {c : Converter} (h : build (defaults settings) t = .ok c)
    (hdynamic : t ≠ .dynamic) (hoption : ∀ inner, t ≠ .option inner) : c.Guarded := by
  cases builds_of_build h with
  | dynamic => exact absurd rfl hdynamic
  | option _ => exact absurd rfl (hoption _)
  | _ => trivial

/-- The converter of the `runtimeType` of a value that is not null is `Guarded`. -/
theorem guarded_of_runtimeType {v : Value} (hnull : v.isNull = false) (c : Converter)
    (h : build (defaults settings) v.runtimeType = .ok c) : c.Guarded := by
  apply guarded_of_build h
  all_goals cases v <;> first
    -- Null alone has the dynamic type for its own, and no value has an option.
    | exact absurd hnull.symm Bool.false_ne_true
    | simp [Value.runtimeType]

/-- The converter of an `inferType` that is not dynamic is `Guarded`. -/
theorem guarded_of_inferType (d : Datum) (t : Ty) (hinfer : d.inferType = .ok t)
    (hdynamic : (t == .dynamic) = false) (c : Converter) (h : build (defaults settings) t = .ok c) :
    c.Guarded := by
  refine guarded_of_build h ?_ (Datum.inferType_ne_option hinfer)
  rintro rfl
  exact absurd (hdynamic.symm.trans (Ty.same_refl .dynamic)) Bool.false_ne_true

end Factory

/-! ## The default chain -/

namespace Converter

variable (settings : Settings)

/-- Writes by a converter where the default chain finds the converters of dynamic values. -/
def write (c : Converter) (v : Value) : Except Error Datum :=
  c.encode (Factory.build (Factory.defaults settings)) v

/-- Reads by a converter where the default chain finds the converters of dynamic documents. -/
def read (c : Converter) (d : Datum) : Except Error Value :=
  c.decode (Factory.build (Factory.defaults settings)) d

variable {settings}

/-- `encodeDynamic` is `write` of the dynamic type with any number of steps that is great enough. -/
theorem encodeDynamic_eq_write {steps : Nat} {v : Value} (h : v.depth < steps) :
    encodeDynamic (Factory.build (Factory.defaults settings)) steps v =
      dynamic.write settings v := by
  rw [write, encode, encodeWith]
  exact encodeDynamic_congr (fun v hv c => Factory.guarded_of_runtimeType hv c) h
    (Nat.lt_succ_self _)

/-- `write` is `encodeWith` a step that is `write` of the dynamic type. -/
theorem write_eq_encodeWith (c : Converter) (v : Value) :
    c.write settings v = encodeWith (dynamic.write settings) c v :=
  encodeWith_congr_below (fun _ hp => encodeDynamic_eq_write hp) c (Nat.lt_succ_self _)

/-- `write` of the dynamic type is that of the converter of the `runtimeType`, but for null. -/
theorem write_dynamic (v : Value) :
    dynamic.write settings v = if v.isNull then .ok .null
      else Factory.build (Factory.defaults settings) v.runtimeType >>= fun c =>
        c.write settings v := by
  rw [write, encode, encodeWith, encodeDynamic]
  split
  · rfl
  · rename_i hnull
    cases hc : Factory.build (Factory.defaults settings) v.runtimeType with
    | error e => rfl
    | ok c =>
      -- The next dynamic step is taken on parts only.
      refine (encodeWith_congr (fun c p hp => ?_) c
        (.inl (Factory.guarded_of_runtimeType (Bool.eq_false_iff.mpr hnull) c hc))).trans
        (write_eq_encodeWith c v).symm
      exact encodeWith_congr_below (fun _ hq => encodeDynamic_eq_write hq) c
        (Value.depth_lt_of_mem_parts hp)

/-- `write` of the dynamic type takes null to null. -/
theorem write_dynamic_null : dynamic.write settings .null = .ok .null := by
  rw [write_dynamic]
  rfl

/-- `write` by a leaf codec is its `encode`. -/
theorem write_leaf (codec : Codec.Leaf) (v : Value) :
    (leaf codec).write settings v = codec.encode v := by
  rw [write_eq_encodeWith, encodeWith]
  cases codec.encode v <;> rfl

/-- `write` by the converter of an option takes null to null, and anything else as the type inside
    does. -/
theorem write_nullable (type : Ty) (inner : Converter) (v : Value) :
    (nullable type inner).write settings v =
      if v.isNull then .ok .null else inner.write settings v := by
  rw [write_eq_encodeWith, encodeWith, ← write_eq_encodeWith]
  rfl

theorem write_list (type : Ty) (element : Converter) (v : Value) :
    (list type element).write settings v = encodeList type (element.write settings) v := by
  rw [write_eq_encodeWith, encodeWith, ← funext (write_eq_encodeWith element)]

theorem write_map (type : Ty) (value : Converter) (v : Value) :
    (map type value).write settings v = encodeMap type (value.write settings) v := by
  rw [write_eq_encodeWith, encodeWith, ← funext (write_eq_encodeWith value)]

/-- `write` by the converter of a grouping is `encodeGrouping` of keys and values. -/
theorem write_grouping (type : Ty) (key value : Converter) (v : Value) :
    (grouping type key value).write settings v =
      encodeGrouping type (key.write settings) (value.write settings) v := by
  rw [write_eq_encodeWith, encodeWith, ← funext (write_eq_encodeWith key),
    ← funext (write_eq_encodeWith value)]

/-- `encodersWith` gives the `write` of each converter. -/
theorem encodersWith_write (cs : List Converter) :
    encodersWith (dynamic.write settings) cs = cs.map (write settings) := by
  rw [encodersWith_eq_map]
  exact List.map_congr_left fun c _ => (funext (write_eq_encodeWith c)).symm

/-- `write` by the converter of a tuple is `encodeTuple` of the items. -/
theorem write_tuple (type : Ty) (items : List Converter) (encodes : Bool) (v : Value) :
    (tuple type items encodes).write settings v =
      encodeTuple type (items.map (write settings)) encodes v := by
  rw [write_eq_encodeWith, encodeWith, encodersWith_write]

/-- `write` by the converter of a record is `encodeRecord` of the fields. -/
theorem write_record (type : RecordType) (fields : List Converter) (v : Value) :
    (record type fields).write settings v =
      encodeRecord type (fields.map (write settings)) v := by
  rw [write_eq_encodeWith, encodeWith, encodersWith_write]

/-- `write` of the dynamic type is that of the converter that is built for the `runtimeType`, where
    the value is not null. -/
theorem write_dynamic_of_build {v : Value} (hnull : v.isNull = false) {c : Converter}
    (hc : Factory.build (Factory.defaults settings) v.runtimeType = .ok c) :
    dynamic.write settings v = c.write settings v := by
  rw [write_dynamic, hnull, if_neg Bool.false_ne_true, hc]
  rfl

/-- The items of a list are dynamic to the dynamic type. -/
theorem write_dynamic_list (items : List Value) :
    dynamic.write settings (.list items) =
      encodeList (.list .dynamic) (dynamic.write settings) (.list items) := by
  have hbuild : Factory.build (Factory.defaults settings) (.list .dynamic) =
      .ok (.list (.list .dynamic) dynamic) := by
    rw [Factory.build_list, Factory.build_dynamic]
    rfl
  rw [write_dynamic_of_build rfl hbuild, write_list]

/-- The values of a map are dynamic to the dynamic type. -/
theorem write_dynamic_map (entries : List (String × Value)) :
    dynamic.write settings (.map entries) =
      encodeMap (.map .dynamic) (dynamic.write settings) (.map entries) := by
  have hbuild : Factory.build (Factory.defaults settings) (.map .dynamic) =
      .ok (.map (.map .dynamic) dynamic) := by
    rw [Factory.build_map, Factory.build_dynamic]
    rfl
  rw [write_dynamic_of_build rfl hbuild, write_map]

/-- The keys and the values of a grouping are dynamic to the dynamic type. -/
theorem write_dynamic_grouping (groups : List (Value × Value)) :
    dynamic.write settings (.grouping groups) =
      encodeGrouping (.grouping .dynamic .dynamic) (dynamic.write settings)
        (dynamic.write settings) (.grouping groups) := by
  have hbuild : Factory.build (Factory.defaults settings) (.grouping .dynamic .dynamic) =
      .ok (.grouping (.grouping .dynamic .dynamic) dynamic dynamic) := by
    rw [Factory.build_grouping, Factory.build_dynamic]
    rfl
  rw [write_dynamic_of_build rfl hbuild, write_grouping]

/-- `decodeDynamic` is `read` of the dynamic type with any number of steps that is great enough. -/
theorem decodeDynamic_eq_read {steps : Nat} {d : Datum} (h : d.depth < steps) :
    decodeDynamic (Factory.build (Factory.defaults settings)) steps d =
      dynamic.read settings d := by
  rw [read, decode, decodeWith]
  exact decodeDynamic_congr Factory.guarded_of_inferType h (Nat.lt_succ_self _)

/-- `read` is `decodeWith` a step that is `read` of the dynamic type. -/
theorem read_eq_decodeWith (c : Converter) (d : Datum) :
    c.read settings d = decodeWith (dynamic.read settings) c d :=
  decodeWith_congr_below (fun _ hp => decodeDynamic_eq_read hp) c (Nat.lt_succ_self _)

/-- `read` of the dynamic type is that of the converter of the `inferType`; null has none. -/
theorem read_dynamic (d : Datum) :
    dynamic.read settings d = (do
      let type ← d.inferType
      if type == .dynamic then .ok .null
      else do
        let c ← Factory.build (Factory.defaults settings) type
        c.read settings d) := by
  rw [read, decode, decodeWith, decodeDynamic]
  cases hinfer : d.inferType with
  | error e => rfl
  | ok t =>
    show (if t == .dynamic then _ else _) = if t == .dynamic then _ else _
    split
    · rfl
    · rename_i hdynamic
      cases hc : Factory.build (Factory.defaults settings) t with
      | error e => rfl
      | ok c =>
        -- The next dynamic step is taken on what lies deeper only.
        refine (decodeWith_congr (fun c p hp => ?_) c (.inl (Factory.guarded_of_inferType d t hinfer
          (Bool.eq_false_iff.mpr hdynamic) c hc))).trans (read_eq_decodeWith c d).symm
        exact decodeWith_congr_below (fun _ hq => decodeDynamic_eq_read hq) c hp

/-- `read` of the dynamic type takes null to null. -/
theorem read_dynamic_null : dynamic.read settings .null = .ok .null := by
  rw [read_dynamic, Datum.inferType]
  rfl

/-- `read` by a leaf codec is its `decode`. -/
theorem read_leaf (codec : Codec.Leaf) (d : Datum) :
    (leaf codec).read settings d = codec.decode d := by
  rw [read_eq_decodeWith, decodeWith]
  cases codec.decode d <;> rfl

/-- `read` by the converter of an option takes null to null, and anything else as the type inside
    does. -/
theorem read_nullable (type : Ty) (inner : Converter) (d : Datum) :
    (nullable type inner).read settings d =
      if d.isNull then .ok .null else inner.read settings d := by
  rw [read_eq_decodeWith, decodeWith, ← read_eq_decodeWith]
  rfl

theorem read_list (type : Ty) (element : Converter) (d : Datum) :
    (list type element).read settings d = decodeList (element.read settings) d := by
  rw [read_eq_decodeWith, decodeWith, ← funext (read_eq_decodeWith element)]

theorem read_map (type : Ty) (value : Converter) (d : Datum) :
    (map type value).read settings d = decodeMap (value.read settings) d := by
  rw [read_eq_decodeWith, decodeWith, ← funext (read_eq_decodeWith value)]

/-- `read` by the converter of a grouping is `decodeGrouping` of keys and values. -/
theorem read_grouping (type : Ty) (key value : Converter) (d : Datum) :
    (grouping type key value).read settings d =
      decodeGrouping type (key.read settings) (value.read settings) d := by
  rw [read_eq_decodeWith, decodeWith, ← funext (read_eq_decodeWith key),
    ← funext (read_eq_decodeWith value)]

/-- `decodersWith` gives the `read` of each converter. -/
theorem decodersWith_read (cs : List Converter) :
    decodersWith (dynamic.read settings) cs = cs.map (read settings) := by
  rw [decodersWith_eq_map]
  exact List.map_congr_left fun c _ => (funext (read_eq_decodeWith c)).symm

/-- `read` by the converter of a tuple is `decodeTuple` of the items. -/
theorem read_tuple (type : Ty) (items : List Converter) (encodes : Bool) (d : Datum) :
    (tuple type items encodes).read settings d =
      decodeTuple type (items.map (read settings)) d := by
  rw [read_eq_decodeWith, decodeWith, decodersWith_read]

/-- `read` by the converter of a record is `decodeRecord` of the fields. -/
theorem read_record (type : RecordType) (fields : List Converter) (d : Datum) :
    (record type fields).read settings d = decodeRecord type (fields.map (read settings)) d := by
  rw [read_eq_decodeWith, decodeWith, decodersWith_read]

end Converter

/-! ## Engines -/

namespace Engine

variable {settings : Settings} {names : Naming} {inv : ConverterCache → Prop}
  {cache : ConverterCache}

/-- From a cache that `Knows` the types over a naming, `encode` of an engine is `write` by the
    converter that the default chain builds. -/
theorem encode_eq_write_of_knows
    (hinv : ConverterCache.Knows inv names (Factory.defaults settings)) (hcache : inv cache)
    {t : Ty} (ht : t.Named names) {v : Value} (hv : v.Named names) :
    (((ofSettings settings).encode t v).run cache).1 = (do
      let c ← Factory.build (Factory.defaults settings) t
      c.write settings v) := by
  have hchain : ∀ factory ∈ (ofSettings settings).chain, factory.NeedsComponents :=
    Factory.defaults_needsComponents settings
  -- The session follows the computation without a cache, so its answer is the same.
  obtain ⟨after, hrun, -⟩ := encode_follows hinv hchain ht hv cache hcache
  rw [hrun]
  rfl

/-- From a cache that `Agrees` with the default chain, `encode` of an engine gives a document if,
    and only if, `write` by the converter of the type does. -/
theorem encode_eq_ok_iff (hcache : cache.Agrees names (Factory.defaults settings)) {t : Ty}
    (ht : t.Named names) {v : Value} (hv : v.Named names) {d : Datum} :
    (((ofSettings settings).encode t v).run cache).1 = .ok d ↔
      ∃ c, Factory.build (Factory.defaults settings) t = .ok c ∧ c.write settings v = .ok d := by
  rw [encode_eq_write_of_knows ConverterCache.knows_agrees hcache ht hv]
  constructor
  · exact Sequence.exists_of_bind_eq_ok
  · rintro ⟨c, hbuild, hwrite⟩
    rw [hbuild]
    exact hwrite

/-- From a cache that `Knows` the types over a naming, `decode` of an engine is `read` by the
    converter that the default chain builds. -/
theorem decode_eq_read_of_knows
    (hinv : ConverterCache.Knows inv names (Factory.defaults settings)) (hcache : inv cache)
    {t : Ty} (ht : t.Named names) (d : Datum) :
    (((ofSettings settings).decode t d).run cache).1 = (do
      let c ← Factory.build (Factory.defaults settings) t
      c.read settings d) := by
  have hchain : ∀ factory ∈ (ofSettings settings).chain, factory.NeedsComponents :=
    Factory.defaults_needsComponents settings
  obtain ⟨after, hrun, -⟩ := decode_follows hinv hchain ht d cache hcache
  rw [hrun]
  rfl

/-- Whatever was asked of it before, `resolve` of an engine is `build` of the default chain. -/
theorem resolve_eq_build {t : Ty} (ht : t.Named names)
    (hcache : (ofSettings settings).Leads names .empty cache) :
    (((ofSettings settings).resolve t).run cache).1 =
      Factory.build (Factory.defaults settings) t := by
  have hchain := Factory.defaults_needsComponents settings
  obtain ⟨after, hrun, -⟩ := Factory.run_resolve ConverterCache.knows_agrees hchain
    (hcache.agrees hchain ConverterCache.agrees_empty).1 ht
  exact congrArg Prod.fst hrun

/-- Whatever was asked of it before, `encode` of an engine is `write` by the converter that the
    default chain builds. -/
theorem encode_eq_write {t : Ty} (ht : t.Named names) {v : Value} (hv : v.Named names)
    (hcache : (ofSettings settings).Leads names .empty cache) :
    (((ofSettings settings).encode t v).run cache).1 = (do
      let c ← Factory.build (Factory.defaults settings) t
      c.write settings v) := by
  have hchain : ∀ factory ∈ (ofSettings settings).chain, factory.NeedsComponents :=
    Factory.defaults_needsComponents settings
  -- What the engine was asked for has left a cache that agrees with the chain.
  obtain ⟨hagrees, -⟩ := hcache.agrees hchain ConverterCache.agrees_empty
  exact encode_eq_write_of_knows ConverterCache.knows_agrees hagrees ht hv

/-- Whatever was asked of it before, `decode` of an engine is `read` by the converter that the
    default chain builds. -/
theorem decode_eq_read {t : Ty} (ht : t.Named names) (d : Datum)
    (hcache : (ofSettings settings).Leads names .empty cache) :
    (((ofSettings settings).decode t d).run cache).1 = (do
      let c ← Factory.build (Factory.defaults settings) t
      c.read settings d) := by
  have hchain : ∀ factory ∈ (ofSettings settings).chain, factory.NeedsComponents :=
    Factory.defaults_needsComponents settings
  obtain ⟨hagrees, -⟩ := hcache.agrees hchain ConverterCache.agrees_empty
  exact decode_eq_read_of_knows ConverterCache.knows_agrees hagrees ht d

end Engine

end DocQuery
