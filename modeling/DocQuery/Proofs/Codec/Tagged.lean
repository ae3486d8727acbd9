import DocQuery.Proofs.Codec.Dynamic
import DocQuery.Proofs.Codec.Fields

/-!
# The reserved key in maps and records

An object that holds a text under the reserved key is read as a pseudo type and not as a plain
object. The entries of a map are written under their own keys and the fields of a record under their
document names, and the reserved key is not refused among them. So a map or a record is written as a
plain object as long as it has nothing under the reserved key that is written as a text.

## Key results

- `Factory.Writes.of_members`: the members of what a map or a record is written as
- `Engine.encode_tagged_iff`: which maps and records are written as pseudo types
-/

namespace DocQuery

/-- What a value of a map or record type is written as: a name for each member, and the type and the
    value that are written under it. Fields that `emits` leaves out are not among them. -/
def Ty.written : Ty → Value → List (String × Ty × Value)
  | map type, .map entries => entries.map fun entry => (entry.1, type, entry.2)
  | record r, .record _ values =>
    ((r.fields.zip values).filter (Function.uncurry Converter.emits)).map fun place =>
      (place.1.wireName, place.1.type, place.2)
  | _, _ => []

/-- An object has the tag that is a text under `tagKey`; anything else there is no tag. -/
theorem Datum.tag?_eq_some {d : Datum} {text : String} :
    d.tag? = some text ↔ d.get? tagKey = some (.string text) := by
  rw [tag?, Option.bind_eq_some_iff]
  constructor
  · -- The member of the tag is found, and it has to be a text.
    rintro ⟨x, hx, htext⟩
    cases x with
    | string s =>
      obtain rfl := Option.some.inj htext
      exact hx
    | _ => cases htext
  · exact fun h => ⟨_, h, rfl⟩

variable {settings : Settings} {names : Naming} {t : Ty} {v : Value} {d : Datum}

/-- The chain of `defaults` writes the value of the type as the document. -/
def Factory.Writes (settings : Settings) (typed : Ty × Value) (d : Datum) : Prop :=
  ∃ c, build (defaults settings) typed.1 = .ok c ∧ c.write settings typed.2 = .ok d

/-- The member `m'` of the object has the name of `m` and is written of its value. -/
abbrev Factory.WritesMember (settings : Settings) (m : String × Ty × Value) (m' : String × Datum) :
    Prop :=
  m.1 = m'.1 ∧ Writes settings m.2 m'.2

namespace Converter

/-- Each entry of a map is written under its key, by `WritesMember`. -/
theorem forall₂_collect_encodeEntry {type : Ty} {c : Converter}
    (hbuild : Factory.build (Factory.defaults settings) type = .ok c)
    {entries : List (String × Value)} {members : List (String × Datum)}
    (h : Sequence.collect (encodeEntry (c.write settings)) entries = .ok members) :
    List.Forall₂ (Factory.WritesMember settings)
      (entries.map fun entry => (entry.1, type, entry.2)) members := by
  rw [List.forall₂_map_left_iff]
  refine (Sequence.forall₂_of_collect h).imp fun entry m hm => ?_
  -- An entry is written as the pair of its key and what its value is written as.
  obtain ⟨d, hwrite, hm⟩ := Sequence.exists_of_bind_eq_ok hm
  obtain rfl := Except.ok.inj hm
  exact ⟨rfl, c, hbuild, hwrite⟩

/-- Each field that `emits` does not leave out is written under its document name, by
    `WritesMember`. -/
theorem forall₂_encodeFields {fields : List Field} {converters : List Converter}
    (hbuild : List.Forall₂ (fun t c => Factory.build (Factory.defaults settings) t = .ok c)
      (fields.map Field.type) converters) {values : List Value} {members : List (String × Datum)}
    (h : encodeFields fields (converters.map (write settings)) values = .ok members) :
    List.Forall₂ (Factory.WritesMember settings)
      (((fields.zip values).filter (Function.uncurry emits)).map fun place =>
        (place.1.wireName, place.1.type, place.2)) members := by
  induction fields generalizing converters values members with
  | nil =>
    obtain rfl := Except.ok.inj h
    exact .nil
  | cons field fields ih =>
    cases hbuild with
    -- Fields, converters and values go side by side; where the values end, so do the members.
    | @cons _ c _ converters hfirst hrest =>
      cases values with
      | nil =>
        obtain rfl := Except.ok.inj h
        exact .nil
      | cons value values =>
        rw [List.map_cons, encodeFields] at h
        rw [List.zip_cons_cons]
        by_cases hemits : emits field value = true
        · -- Whether a field is written is decided alike by the writer and by the filter.
          have hwritten : Function.uncurry emits (field, value) = true := hemits
          rw [if_pos hemits] at h
          obtain ⟨d, hwrite, h⟩ := Sequence.exists_of_bind_eq_ok h
          obtain ⟨members, hmembers, h⟩ := Sequence.exists_of_bind_eq_ok h
          obtain rfl := Except.ok.inj h
          rw [List.filter_cons_of_pos hwritten]
          exact .cons ⟨rfl, c, hfirst, hwrite⟩ (ih hrest hmembers)
        · have hwritten : ¬Function.uncurry emits (field, value) = true := hemits
          rw [if_neg hemits] at h
          rw [List.filter_cons_of_neg hwritten]
          exact ih hrest h

end Converter

/-- A map or a record is written as the object of its members, unless it is `null`. -/
theorem Factory.Writes.of_members (ht : (∃ type, t = .map type) ∨ ∃ r, t = .record r)
    (h : Factory.Writes settings (t, v) d) :
    (d = .null ∧ t.written v = []) ∨ ∃ members, d = .object members ∧
      List.Forall₂ (Factory.WritesMember settings) (t.written v) members := by
  obtain ⟨c, hbuild, hwrite⟩ := h
  rcases ht with ⟨type, rfl⟩ | ⟨r, rfl⟩
  · obtain ⟨value, rfl, hvalue⟩ := Factory.exists_of_build_map hbuild
    rw [Converter.write_map] at hwrite
    cases v with
    | null => exact .inl ⟨(Except.ok.inj hwrite).symm, rfl⟩
    | map entries =>
      obtain ⟨members, hmembers, rfl⟩ := Sequence.exists_of_map_eq_ok hwrite
      exact .inr ⟨members, rfl, Converter.forall₂_collect_encodeEntry hvalue hmembers⟩
    | _ => cases hwrite
  · obtain ⟨converters, rfl, hfields⟩ := Factory.exists_of_build_record hbuild
    rw [Converter.write_record] at hwrite
    cases v with
    | null => exact .inl ⟨(Except.ok.inj hwrite).symm, rfl⟩
    | record other values =>
      -- A record of another type is refused, so only the declared fields are left.
      rw [Converter.encodeRecord] at hwrite
      split_ifs at hwrite
      obtain ⟨members, hmembers, rfl⟩ := Sequence.exists_of_map_eq_ok hwrite
      exact .inr ⟨members, rfl, Converter.forall₂_encodeFields hfields hmembers⟩
    | _ => cases hwrite

/-- The types and the values of the members of `written` are over the naming if the whole is. -/
theorem Ty.named_of_mem_written (ht : t.Named names) (hv : v.Named names) :
    ∀ m ∈ t.written v, m.2.1.Named names ∧ m.2.2.Named names := by
  intro m hm
  unfold written at hm
  split at hm
  · -- A map writes its entries, and a record those of its fields that are not left out.
    obtain ⟨entry, hentry, rfl⟩ := List.mem_map.mp hm
    exact ⟨named_map.mp ht, hv.at_part (List.mem_map_of_mem hentry)⟩
  · obtain ⟨place, hplace, rfl⟩ := List.mem_map.mp hm
    have hzip := List.of_mem_zip (List.mem_filter.mp hplace).1
    exact ⟨ht.at_part (List.mem_map_of_mem hzip.1), hv.at_part hzip.2⟩
  · cases hm

/-- What a value is written as is one document, since the chain builds one converter of a type. -/
theorem Factory.Writes.unique {typed : Ty × Value} {d' : Datum} (h : Writes settings typed d)
    (h' : Writes settings typed d') : d = d' := by
  obtain ⟨c, hbuild, hwrite⟩ := h
  obtain ⟨c', hbuild', hwrite'⟩ := h'
  obtain rfl := Except.ok.inj (hbuild.symm.trans hbuild')
  exact Except.ok.inj (hwrite.symm.trans hwrite')

/-- The tag of an object is the text that was written under `tagKey`, if a text was. -/
theorem Factory.tag?_eq_some_iff {found : Option (Ty × Value)}
    (h : Option.Rel (Writes settings) found (d.get? Datum.tagKey)) {text : String} :
    d.tag? = some text ↔ ∃ typed, found = some typed ∧ Writes settings typed (.string text) := by
  rw [Datum.tag?_eq_some]
  -- The lookup in the object is related to the one in what was written, whatever it finds.
  generalize d.get? Datum.tagKey = x at h
  cases h with
  | none => simp
  | @some typed x htyped =>
    constructor
    · intro hx
      exact ⟨typed, rfl, Option.some.inj hx ▸ htyped⟩
    · rintro ⟨typed', hsame, htext⟩
      obtain rfl := Option.some.inj hsame
      rw [htyped.unique htext]

namespace Engine

/-- A map or a record is written as a pseudo type if, and only if, the first thing that it writes
    under `tagKey` is written as a text, which is then the tag. So it is written as a plain object,
    which is read as a map where nothing else is known, or as null, as long as `tagKey` is neither
    among the keys of its entries nor among the document names of its fields. -/
theorem encode_tagged_iff (ht : (∃ type, t = .map type) ∨ ∃ r, t = .record r)
    (hnamed : t.Named names) (hv : v.Named names) {cache : ConverterCache}
    (hcache : cache.Agrees names (Factory.defaults settings))
    (h : (((ofSettings settings).encode t v).run cache).1 = .ok d) :
    (Datum.tagKey ∉ (t.written v).map Prod.fst → d.tag? = none) ∧
    (∀ later : ConverterCache, later.Agrees names (Factory.defaults settings) → ∀ text,
      d.tag? = some text ↔ ∃ type value,
        Members.get? Datum.tagKey (t.written v) = some (type, value) ∧
        (((ofSettings settings).encode type value).run later).1 = .ok (.string text)) ∧
    (d.tag? = none → d = .null ∨ d.inferType = .ok (.map .dynamic)) := by
  have hwrites : Factory.Writes settings (t, v) d := (encode_eq_ok_iff hcache hnamed hv).mp h
  have hrel : Option.Rel (Factory.Writes settings) (Members.get? Datum.tagKey (t.written v))
      (d.get? Datum.tagKey) := by
    rcases hwrites.of_members ht with ⟨rfl, hnone⟩ | ⟨members, rfl, hmembers⟩
    · rw [hnone]
      exact .none
    · exact Members.rel_get? hmembers Datum.tagKey
  -- First the plain case, then the tag in general, then the type of what has no tag.
  refine ⟨fun hkey => ?_, fun later hlater text => ?_, fun htag => ?_⟩
  · rw [Members.get?_eq_none hkey] at hrel
    generalize hfound : d.get? Datum.tagKey = found at hrel
    cases hrel
    rw [Datum.tag?, hfound, Option.bind_none]
  · have hencode {type : Ty} {value : Value}
        (hfound : Members.get? Datum.tagKey (t.written v) = some (type, value)) :
        (((ofSettings settings).encode type value).run later).1 = .ok (.string text) ↔
          Factory.Writes settings (type, value) (.string text) := by
      -- What is written under the key may be asked of the engine again at any later time.
      obtain ⟨htype, hvalue⟩ :=
        Ty.named_of_mem_written hnamed hv _ (Members.mem_of_get? hfound)
      exact encode_eq_ok_iff hlater htype hvalue
    rw [Factory.tag?_eq_some_iff hrel]
    constructor
    · rintro ⟨⟨type, value⟩, hfound, htext⟩
      exact ⟨type, value, hfound, (hencode hfound).mpr htext⟩
    · rintro ⟨type, value, hfound, htext⟩
      exact ⟨(type, value), hfound, (hencode hfound).mp htext⟩
  · rcases hwrites.of_members ht with ⟨rfl, -⟩ | ⟨members, rfl, -⟩
    · exact .inl rfl
    · right
      rw [Datum.inferType, htag]

/-! A map with one entry, whose key is the reserved one. -/

/-- The entries of a map whose only key is `tagKey`. -/
def tagged : List (String × Value) := [(Datum.tagKey, .string Datum.timeTag)]

/-- The document of the map with the entries `tagged`. -/
def taggedDatum : Datum := .object [(Datum.tagKey, .string Datum.timeTag)]

/-- There are no declared types in the map of `tagged`. -/
theorem named_tagged : (Value.map tagged).Named .undeclared := by
  refine .intro trivial ?_
  simp only [Value.parts, tagged, List.map, List.forall_mem_cons]
  exact ⟨.of_leaf rfl trivial, List.forall_mem_nil _⟩

theorem named_mapOfString : (Ty.map .string).Named .undeclared :=
  Ty.named_map.mpr (.of_leaf rfl trivial)

theorem build_mapOfString : Factory.build (Factory.defaults {}) (.map .string) =
    .ok (.map (.map .string) (.leaf .string)) := by
  rw [Factory.build_map, Factory.build_leaf rfl]
  rfl

/-- The map is written with its key as it is, and so as `taggedDatum`. -/
theorem encode_tagged :
    ((ofSettings {}).encode (.map .string) (.map tagged)).answer = .ok taggedDatum := by
  refine (encode_eq_ok_iff ConverterCache.agrees_empty named_mapOfString named_tagged).mpr
    ⟨_, build_mapOfString, ?_⟩
  rw [Converter.write_map]
  rfl

/-- A map with a text under `tagKey` has that text as its tag. -/
theorem encode_tagged_iff_tagged :
    (((∃ type, Ty.map .string = .map type) ∨ ∃ r, Ty.map .string = .record r) ∧
      (Ty.map .string).Named .undeclared ∧ (Value.map tagged).Named .undeclared ∧
      ConverterCache.empty.Agrees .undeclared (Factory.defaults {}) ∧
      ((ofSettings {}).encode (.map .string) (.map tagged)).answer = .ok taggedDatum) ∧
    ∃ type value, Members.get? Datum.tagKey ((Ty.map .string).written (.map tagged)) =
        some (type, value) ∧
      (((ofSettings {}).encode type value).run .empty).1 = .ok (.string Datum.timeTag) := by
  have hmap : (∃ type, Ty.map .string = .map type) ∨ ∃ r, Ty.map .string = .record r :=
    .inl ⟨_, rfl⟩
  have hempty : ConverterCache.empty.Agrees .undeclared (Factory.defaults {}) :=
    ConverterCache.agrees_empty
  refine ⟨⟨hmap, named_mapOfString, named_tagged, hempty, encode_tagged⟩, ?_⟩
  -- The map has the tag, so one of its entries has to be written as the tag's text.
  obtain ⟨-, hiff, -⟩ :=
    encode_tagged_iff hmap named_mapOfString named_tagged hempty encode_tagged
  exact (hiff .empty hempty Datum.timeTag).mp rfl

/-- Such a map is taken for a time: `inferType` of its document is the type of times, and as a map
    the document is refused for its kind. -/
theorem not_encode_plain :
    ((ofSettings {}).encode (.map .string) (.map tagged)).answer = .ok taggedDatum ∧
    taggedDatum.tag? = some Datum.timeTag ∧ taggedDatum.inferType = .ok .zoned ∧
    ((ofSettings {}).decode (.map .string) taggedDatum).answer =
      .error (.typeMismatch "OBJECT" taggedDatum.kind) := by
  -- In turn: what is written, its tag, the type inferred for it, and reading it as a map.
  refine ⟨encode_tagged, rfl, ?_, ?_⟩
  · rw [taggedDatum, Datum.inferType]
    rfl
  · have hread : ((ofSettings {}).decode (.map .string) taggedDatum).answer = _ :=
      decode_eq_read_of_knows ConverterCache.knows_agrees ConverterCache.agrees_empty
        named_mapOfString taggedDatum
    rw [hread, build_mapOfString]
    show Converter.read {} (.map (.map .string) (.leaf .string)) taggedDatum = _
    rw [Converter.read_map]
    rfl

end Engine

end DocQuery
