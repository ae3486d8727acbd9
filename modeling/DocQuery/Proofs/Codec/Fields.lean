import DocQuery.Codec.Encode
import DocQuery.Proofs.Members
import DocQuery.Proofs.Schema.Naming
import DocQuery.Proofs.Sequence

/-!
# Fields and their members

The members of an object go to the fields of a record by their document names. Where no two fields
have one document name, what is found under the name of a field is what was written of its value,
and nothing else gets to the field. So an object says for each field by itself what value is read.

## Key results

- `Converter.get?_encodeFields`: what is found under the name of a field that was written
- `Converter.exists_decodeFields`: an object that tells values is read as these values
- `Converter.exists_decodeRecord_encodeFields`: a record is given back where its fields are
-/

namespace DocQuery

/-! ## Places of fields -/

namespace RecordType

variable {r : RecordType} {index : Nat} {field : Field}

/-- Fields with one name, or with one document name, are at one place. The `key` is either name. -/
theorem place_eq {key : Field → String} (hnodup : (r.fields.map key).Nodup) {other : Nat}
    {field' : Field} (hfield : r.fields[index]? = some field)
    (hfield' : r.fields[other]? = some field') (hname : key field = key field') :
    index = other := by
  have hlt : index < (r.fields.map key).length := by
    rw [List.length_map]
    exact (List.getElem?_eq_some_iff.mp hfield).1
  refine (List.getElem?_inj hlt hnodup).mp ?_
  rw [List.getElem?_map, List.getElem?_map, hfield, hfield', Option.map_some, Option.map_some,
    hname]

/-- The field that `fieldByWireName?` finds stands at the place that it gives and has the name. -/
theorem getElem?_of_fieldByWireName? {key : String}
    (h : r.fieldByWireName? key = some (index, field)) :
    r.fields[index]? = some field ∧ field.wireName = key := by
  -- The place is found first, and then the field at it.
  obtain ⟨place, hplace, h⟩ := Option.bind_eq_some_iff.mp h
  obtain ⟨found, hfound, h⟩ := Option.bind_eq_some_iff.mp h
  obtain ⟨rfl, rfl⟩ := Prod.mk.inj (Option.some.inj h)
  obtain ⟨hlt, hname, -⟩ := List.findIdx?_eq_some_iff_getElem.mp hplace
  rw [List.getElem?_eq_getElem hlt] at hfound
  obtain rfl := Option.some.inj hfound
  exact ⟨List.getElem?_eq_getElem hlt, beq_iff_eq.mp hname⟩

/-- Where `fieldByWireName?` finds no field, no field has the document name. -/
theorem wireName_ne_of_fieldByWireName? {key : String} (h : r.fieldByWireName? key = none)
    (hfield : r.fields[index]? = some field) : field.wireName ≠ key := by
  rintro rfl
  rw [fieldByWireName?] at h
  -- Were the field there, its place would have been found.
  cases hplace : r.fields.findIdx? fun f => f.wireName == field.wireName with
  | none =>
    have hne := List.findIdx?_eq_none_iff.mp hplace field (List.mem_of_getElem? hfield)
    simp at hne
  | some place =>
    obtain ⟨hlt, -⟩ := List.findIdx?_eq_some_iff_getElem.mp hplace
    rw [hplace] at h
    simp [List.getElem?_eq_getElem hlt] at h

/-- A field that `field?` finds has a place, and `fieldIndex?` finds that place. -/
theorem exists_place_of_field? {name : String} (h : r.field? name = some field) :
    ∃ index, r.fieldIndex? name = some index ∧ r.fields[index]? = some field := by
  rw [field?, List.find?_eq_some_iff_getElem] at h
  obtain ⟨hname, index, hlt, rfl, hbefore⟩ := h
  refine ⟨index, ?_, List.getElem?_eq_getElem hlt⟩
  exact List.findIdx?_eq_some_iff_getElem.mpr ⟨hlt, hname, fun j hj => by simpa using hbefore j hj⟩

/-- Before a field there is none of its name. -/
theorem name_ne_of_lt (hnodup : (r.fields.map Field.name).Nodup) {other : Nat}
    (hindex : index < r.fields.length) (hlt : other < index) :
    r.fields[other].name ≠ r.fields[index].name :=
  fun hname => Nat.ne_of_lt hlt
    (place_eq hnodup (List.getElem?_eq_getElem (hlt.trans hindex)) (List.getElem?_eq_getElem hindex)
      hname)

/-- `field?` finds a field by its name where no two fields have one name. -/
theorem field?_eq_some (hnodup : (r.fields.map Field.name).Nodup)
    (hfield : r.fields[index]? = some field) : r.field? field.name = some field := by
  obtain ⟨hindex, rfl⟩ := List.getElem?_eq_some_iff.mp hfield
  refine List.find?_eq_some_iff_getElem.mpr ⟨beq_self_eq_true _, index, hindex, rfl, ?_⟩
  intro other hlt
  simpa using name_ne_of_lt hnodup hindex hlt

/-- `fieldIndex?` finds the place of a field by its name where no two fields have one name. -/
theorem fieldIndex?_eq_some (hnodup : (r.fields.map Field.name).Nodup)
    (hfield : r.fields[index]? = some field) : r.fieldIndex? field.name = some index := by
  obtain ⟨hindex, rfl⟩ := List.getElem?_eq_some_iff.mp hfield
  refine List.findIdx?_eq_some_iff_getElem.mpr ⟨hindex, beq_self_eq_true _, ?_⟩
  intro other hlt
  simpa using name_ne_of_lt hnodup hindex hlt

end RecordType

theorem exists_getElem?_eq_some {α : Type} {items : List α} {index n : Nat}
    (hlength : items.length = n) (h : index < n) : ∃ item, items[index]? = some item :=
  ⟨_, List.getElem?_eq_getElem (hlength ▸ h)⟩

namespace Converter

open Sequence (exists_of_bind_eq_ok)

variable {writers : List (Value → Except Error Datum)} {readers : List (Datum → Except Error Value)}
  {type : RecordType} {fields : List Field} {values : List Value} {members : List (String × Datum)}

/-! ## Writing -/

/-- `emits` is false where a field may be left out and holds its default. -/
theorem emits_eq_false {field : Field} {value : Value} :
    emits field value = false ↔ field.emitDefault = false ∧ (value == field.default) = true := by
  simp [emits]

/-- `encodeFields` writes fields in their order and under their document names, some left out. -/
theorem sublist_encodeFields (h : encodeFields fields writers values = .ok members) :
    (members.map Prod.fst).Sublist (fields.map Field.wireName) := by
  induction fields generalizing writers values members with
  | nil =>
    obtain rfl := Except.ok.inj h
    exact .slnil
  | cons field fields ih =>
    cases writers with
    | nil =>
      obtain rfl := Except.ok.inj h
      exact List.nil_sublist _
    | cons writer writers =>
      cases values with
      | nil =>
        obtain rfl := Except.ok.inj h
        exact List.nil_sublist _
      | cons value values =>
        rw [encodeFields] at h
        -- A field that is left out is passed over in the names.
        split_ifs at h
        · obtain ⟨d, -, h⟩ := exists_of_bind_eq_ok h
          obtain ⟨members, hmembers, h⟩ := exists_of_bind_eq_ok h
          obtain rfl := Except.ok.inj h
          exact (ih hmembers).cons_cons _
        · exact (ih h).cons _

/-- Under the document name of a field `get?` finds what was written of its value by `encodeFields`,
    and nothing where the field was left out. -/
theorem get?_encodeFields (hnodup : (fields.map Field.wireName).Nodup)
    (h : encodeFields fields writers values = .ok members) {index : Nat} {field : Field}
    {writer : Value → Except Error Datum} {value : Value} (hfield : fields[index]? = some field)
    (hwriter : writers[index]? = some writer) (hvalue : values[index]? = some value) :
    if emits field value then
      ∃ d, writer value = .ok d ∧ Members.get? field.wireName members = some d
    else Members.get? field.wireName members = none := by
  induction fields generalizing writers values members index with
  | nil => cases hfield
  | cons first fields ih =>
    cases writers with
    | nil => cases hwriter
    | cons firstWriter writers =>
      cases values with
      | nil => cases hvalue
      | cons firstValue values =>
        rw [List.map_cons, List.nodup_cons] at hnodup
        -- No member of the fields after the first one has its name.
        have hrest {members : List (String × Datum)}
            (hmembers : encodeFields fields writers values = .ok members) :
            first.wireName ∉ members.map Prod.fst :=
          fun hmem => hnodup.1 ((sublist_encodeFields hmembers).subset hmem)
        have hother {index : Nat} (hfield : fields[index]? = some field) :
            first.wireName ≠ field.wireName := by
          intro hname
          exact hnodup.1 (hname ▸ List.mem_map_of_mem (List.mem_of_getElem? hfield))
        rw [encodeFields] at h
        -- The first field comes first among the members or is not there at all; either way the
        -- others are looked up past it.
        by_cases hemits : emits first firstValue = true
        · rw [if_pos hemits] at h
          obtain ⟨d, hd, h⟩ := exists_of_bind_eq_ok h
          obtain ⟨members, hmembers, h⟩ := exists_of_bind_eq_ok h
          obtain rfl := Except.ok.inj h
          cases index with
          | zero =>
            obtain rfl := Option.some.inj hfield
            obtain rfl := Option.some.inj hwriter
            obtain rfl := Option.some.inj hvalue
            rw [if_pos hemits]
            exact ⟨d, hd, by rw [Members.get?, if_pos rfl]⟩
          | succ index =>
            rw [Members.get?, if_neg (hother hfield)]
            exact ih hnodup.2 hmembers hfield hwriter hvalue
        · rw [if_neg hemits] at h
          cases index with
          | zero =>
            obtain rfl := Option.some.inj hfield
            obtain rfl := Option.some.inj hvalue
            rw [if_neg hemits]
            exact Members.get?_eq_none (hrest h)
          | succ index => exact ih hnodup.2 h hfield hwriter hvalue

/-- `encodeFields` writes a record where each of its fields is written. -/
theorem exists_encodeFields (h : ∀ (index : Nat) field writer value, fields[index]? = some field →
      writers[index]? = some writer → values[index]? = some value → ∃ d, writer value = .ok d) :
    ∃ members, encodeFields fields writers values = .ok members := by
  induction fields generalizing writers values with
  | nil => exact ⟨[], rfl⟩
  | cons field fields ih =>
    cases writers with
    | nil => exact ⟨[], rfl⟩
    | cons writer writers =>
      cases values with
      | nil => exact ⟨[], rfl⟩
      | cons value values =>
        -- Places of the rest are one further on in the whole.
        obtain ⟨d, hd⟩ := h 0 field writer value rfl rfl rfl
        obtain ⟨members, hmembers⟩ : ∃ members, encodeFields fields writers values = .ok members :=
          ih fun index => h (index + 1)
        rw [encodeFields, hd, hmembers]
        split
        · exact ⟨_, rfl⟩
        · exact ⟨_, rfl⟩

/-! ## Reading -/

/-- The members tell the values: what is found under the name of a field is read as its value, and
    a field of which nothing is found held its value before, up to equality. -/
def Tells (fields : List Field) (readers : List (Datum → Except Error Value)) (held : List Value)
    (members : List (String × Datum)) (values : List Value) : Prop :=
  ∀ (index : Nat) field reader old value, fields[index]? = some field →
    readers[index]? = some reader → held[index]? = some old → values[index]? = some value →
    match Members.get? field.wireName members with
    | some d => ∃ v, reader d = .ok v ∧ (v == value) = true
    | none => (old == value) = true

/-- Items that are the `same` one by one are the same together: `sameItems`. -/
theorem sameItems_of_forall₂ {items' items : List Value}
    (h : List.Forall₂ (fun v' v => v'.same v = true) items' items) :
    Value.sameItems items' items = true := by
  induction h with
  | nil => simp [Value.sameItems]
  | cons hitem hitems ih => simp [Value.sameItems, hitem, ih]

/-- With no members left, the fields that members should tell hold their values already. -/
theorem Tells.sameItems {held : List Value} (hreaders : readers.length = fields.length)
    (hheld : held.length = fields.length) (hvalues : values.length = fields.length)
    (h : Tells fields readers held [] values) : Value.sameItems held values = true := by
  refine sameItems_of_forall₂ (List.forall₂_iff_get.mpr ⟨hheld.trans hvalues.symm, ?_⟩)
  intro index hlt hlt'
  exact h index fields[index] readers[index] held[index] values[index]
    (List.getElem?_eq_getElem _) (List.getElem?_eq_getElem _) (List.getElem?_eq_getElem hlt)
    (List.getElem?_eq_getElem hlt')

/-- `decodeFields` reads members that `Tells` values as these values. -/
theorem exists_decodeFields (hnodup : (type.fields.map Field.wireName).Nodup) {held : List Value}
    (hreaders : readers.length = type.fields.length) (hheld : held.length = type.fields.length)
    (hvalues : values.length = type.fields.length) (hkeys : (members.map Prod.fst).Nodup)
    (h : Tells type.fields readers held members values) :
    ∃ values', decodeFields type readers ⟨type, held⟩ members = .ok ⟨type, values'⟩ ∧
      Value.sameItems values' values = true := by
  induction members generalizing held with
  | nil => exact ⟨held, rfl, h.sameItems hreaders hheld hvalues⟩
  | cons m rest ih =>
    obtain ⟨key, d⟩ := m
    rw [List.map_cons, List.nodup_cons] at hkeys
    rw [decodeFields]
    cases hplace : type.fieldByWireName? key with
    | none =>
      -- The member belongs to no field.
      refine ih hheld hkeys.2 fun index field reader old value hfield hreader hold hvalue => ?_
      have hne := RecordType.wireName_ne_of_fieldByWireName? hplace hfield
      have hfound := h index field reader old value hfield hreader hold hvalue
      rwa [Members.get?, if_neg (Ne.symm hne)] at hfound
    -- The member goes to the field at a place, and that field takes its value.
    | some place =>
      obtain ⟨index, field⟩ := place
      obtain ⟨hfield, rfl⟩ := RecordType.getElem?_of_fieldByWireName? hplace
      have hlt : index < type.fields.length := (List.getElem?_eq_some_iff.mp hfield).1
      obtain ⟨reader, hreader⟩ := exists_getElem?_eq_some hreaders hlt
      obtain ⟨old, hold⟩ := exists_getElem?_eq_some hheld hlt
      obtain ⟨value, hvalue⟩ := exists_getElem?_eq_some hvalues hlt
      have hfound := h index field reader old value hfield hreader hold hvalue
      rw [Members.get?, if_pos rfl] at hfound
      obtain ⟨v, hv, hsame⟩ := hfound
      simp only [hreader, hv]
      have hset : (held.set index v).length = type.fields.length := by rw [List.length_set, hheld]
      refine ih hset hkeys.2 ?_
      -- The field holds its value from now on, and nothing changes for the other fields.
      intro index' field' reader' old' value' hfield' hreader' hold' hvalue'
      by_cases hindex : index' = index
      · subst hindex
        obtain rfl := Option.some.inj (hfield.symm.trans hfield')
        obtain rfl := Option.some.inj (hvalue.symm.trans hvalue')
        rw [List.getElem?_set_self (hheld ▸ hlt)] at hold'
        obtain rfl := Option.some.inj hold'
        rw [Members.get?_eq_none hkeys.1]
        exact hsame
      · have hne : field.wireName ≠ field'.wireName :=
          fun hname => hindex (RecordType.place_eq hnodup hfield' hfield hname.symm)
        rw [List.getElem?_set_ne (Ne.symm hindex)] at hold'
        have hfound' := h index' field' reader' old' value' hfield' hreader' hold' hvalue'
        rwa [Members.get?, if_neg hne] at hfound'

/-- An object without the reserved key has no `tag?`. -/
theorem tag?_object_eq_none (h : Datum.tagKey ∉ members.map Prod.fst) :
    (Datum.object members).tag? = none := by
  rw [Datum.tag?, Datum.get?, Members.get?_eq_none h]
  rfl

/-- `decodeRecord` reads an object whose members `Tells` values as the record of these values. -/
theorem exists_decodeRecord (hnodup : (type.fields.map Field.wireName).Nodup)
    (hreaders : readers.length = type.fields.length) (hvalues : values.length = type.fields.length)
    (hkeys : (members.map Prod.fst).Nodup) (hreserved : Datum.tagKey ∉ members.map Prod.fst)
    (h : Tells type.fields readers (type.fields.map Field.default) members values) :
    ∃ values', decodeRecord type readers (.object members) = .ok (.record type values') ∧
      Value.sameItems values' values = true := by
  obtain ⟨values', hread, hsame⟩ :=
    -- It starts from a record with the default of every field.
    exists_decodeFields hnodup hreaders (List.length_map ..) hvalues hkeys h
  refine ⟨values', ?_, hsame⟩
  rw [decodeRecord, tag?_object_eq_none hreserved, if_neg (by decide), RecordValue.default, hread]
  rfl

/-- What the writer at a place writes of the value there is read as an equal value by the reader
    there. -/
def GiveBack (writers : List (Value → Except Error Datum))
    (readers : List (Datum → Except Error Value)) (values : List Value) : Prop :=
  ∀ (index : Nat) writer reader value, writers[index]? = some writer →
    readers[index]? = some reader → values[index]? = some value →
    ∀ d, writer value = .ok d → ∃ v, reader d = .ok v ∧ (v == value) = true

/-- What `encodeFields` wrote of a record whose fields are given back `Tells` its values. -/
theorem tells_encodeFields (hnodup : (fields.map Field.wireName).Nodup)
    (hlength : writers.length = fields.length)
    (hfields : GiveBack writers readers values)
    (h : encodeFields fields writers values = .ok members) :
    Tells fields readers (fields.map Field.default) members values := by
  intro index field reader old value hfield hreader hold hvalue
  have hlt : index < fields.length := (List.getElem?_eq_some_iff.mp hfield).1
  obtain ⟨writer, hwriter⟩ := exists_getElem?_eq_some hlength hlt
  have hfound := get?_encodeFields hnodup h hfield hwriter hvalue
  by_cases hemits : emits field value = true
  · rw [if_pos hemits] at hfound
    obtain ⟨d, hd, hget⟩ := hfound
    rw [hget]
    exact hfields index writer reader value hwriter hreader hvalue d hd
  · -- The field was left out because it held its default, and it is read as that.
    rw [if_neg hemits] at hfound
    rw [hfound]
    rw [List.getElem?_map, hfield] at hold
    obtain rfl := Option.some.inj hold
    rw [Value.same_comm]
    exact (emits_eq_false.mp (Bool.eq_false_iff.mpr hemits)).2

/-- `decodeRecord` gives a record that `encodeFields` wrote back as an equal one where the values of
    its fields are given back. -/
theorem exists_decodeRecord_encodeFields (hnodup : (type.fields.map Field.wireName).Nodup)
    (hreserved : Datum.tagKey ∉ type.fields.map Field.wireName)
    (hwriters : writers.length = type.fields.length)
    (hreaders : readers.length = type.fields.length) (hvalues : values.length = type.fields.length)
    (hfields : GiveBack writers readers values)
    (h : encodeFields type.fields writers values = .ok members) :
    ∃ values', decodeRecord type readers (.object members) = .ok (.record type values') ∧
      Value.sameItems values' values = true := by
  -- The document names are distinct and none is reserved, so this is so of the members.
  have hsublist := sublist_encodeFields h
  exact exists_decodeRecord hnodup hreaders hvalues (hsublist.nodup hnodup)
    (fun hmem => hreserved (hsublist.subset hmem)) (tells_encodeFields hnodup hwriters hfields h)

end Converter

end DocQuery
