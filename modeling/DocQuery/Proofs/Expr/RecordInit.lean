import DocQuery.Expr.Evaluate
import DocQuery.Proofs.Codec.Dynamic
import DocQuery.Proofs.Codec.Fields

/-!
# Setting fields

A record whose fields are set to constants has two descriptions: the value that is evaluated from
the defaults of all fields, and the object of what is written of each constant, under the document
name of its field. Both are made by the same bindings in the same order, so at every point a member
is what was written of the value of its field, and a field without a member holds its default. An
object that is related to a value like this is read as that value, and so is what is written of the
value itself.

## Key results

- `Factory.evaluateBindings_drafts`: bindings keep members and values related
- `Factory.Drafts.tells`: the object of the members is read as the values
- `Factory.exists_decodeRecord_of_keeps`: so is what is written of the values
-/

namespace DocQuery

open Sequence (collect exists_collect_eq_ok exists_of_bind_eq_ok related_of_getElem?)

variable {names : Naming} {settings : Settings}

/-! ## Values that are given back -/

/-- An engine that was not used before gives back an equal value from what it wrote: `encode` and
    then `decode`, up to `==` of values. -/
def Engine.GivesBack (engine : Engine) (t : Ty) (v : Value) : Prop :=
  ∃ d v', (engine.encode t v).answer = .ok d ∧ (engine.decode t d).answer = .ok v' ∧
    (v' == v) = true

namespace Factory

/-- The chain of `defaults` writes the value, which is over the naming, as the document and reads an
    equal value from it. -/
def Keeps (names : Naming) (settings : Settings) (t : Ty) (v : Value) (d : Datum) : Prop :=
  v.Named names ∧ ∃ c v', build (defaults settings) t = .ok c ∧ c.write settings v = .ok d ∧
    c.read settings d = .ok v' ∧ (v' == v) = true

/-- `Engine.GivesBack` is `Keeps` with some document: a new engine answers with the converter that
    `build` makes. -/
theorem givesBack_iff {t : Ty} {v : Value} (ht : t.Named names) (hv : v.Named names) :
    (Engine.ofSettings settings).GivesBack t v ↔ ∃ d, Keeps names settings t v d := by
  have hencode : ((Engine.ofSettings settings).encode t v).answer = _ :=
    Engine.encode_eq_write ht hv .refl
  have hdecode (d : Datum) : ((Engine.ofSettings settings).decode t d).answer = _ :=
    Engine.decode_eq_read ht d .refl
  simp only [Engine.GivesBack, hencode, hdecode]
  constructor
  · rintro ⟨d, v', hwrite, hread, hsame⟩
    obtain ⟨c, hbuild, hwrite⟩ := exists_of_bind_eq_ok hwrite
    -- Both requests are for one type, so one converter writes and reads.
    rw [hbuild] at hread
    exact ⟨d, hv, c, v', hbuild, hwrite, hread, hsame⟩
  · rintro ⟨d, -, c, v', hbuild, hwrite, hread, hsame⟩
    rw [hbuild]
    exact ⟨d, v', hwrite, hread, hsame⟩

/-- A value of a type without parts is given back where its `Codec.Leaf` gives it back. -/
theorem givesBack_leaf {t : Ty} {codec : Codec.Leaf} {v v' : Value} {d : Datum}
    (hleaf : leaf? settings t = some codec) (ht : t.Named names) (hv : v.Named names)
    (hencode : codec.encode v = .ok d) (hdecode : codec.decode d = .ok v')
    (hsame : (v' == v) = true) : (Engine.ofSettings settings).GivesBack t v := by
  refine (givesBack_iff ht hv).mpr ⟨d, hv, .leaf codec, v', build_leaf hleaf, ?_, ?_, hsame⟩
  · rw [Converter.write_leaf, hencode]
  · rw [Converter.read_leaf, hdecode]

/-! ## Members and values that are set together -/

/-- What is found under the name of a field was written of its value as `Keeps` says, and a field of
    which nothing is found holds its default. -/
def Drafts (names : Naming) (settings : Settings) (fields : List Field)
    (members : List (String × Datum)) (values : List Value) : Prop :=
  ∀ (index : Nat) field value, fields[index]? = some field → values[index]? = some value →
    match Members.get? field.wireName members with
    | some d => Keeps names settings field.type value d
    | none => value = field.default

variable {r : RecordType} {members : List (String × Datum)} {values : List Value}

/-- Before anything is set there are no members, and `Drafts` holds of the defaults. -/
theorem drafts_defaults (fields : List Field) :
    Drafts names settings fields [] (fields.map Field.default) := by
  intro index field value hfield hvalue
  rw [List.getElem?_map, hfield] at hvalue
  exact (Option.some.inj hvalue).symm

/-- `Drafts` is kept where a field is set on both sides: `Members.set` under its document name, and
    the value at its place. -/
theorem Drafts.set (hnodup : (r.fields.map Field.wireName).Nodup)
    (h : Drafts names settings r.fields members values) {index : Nat} {field : Field}
    (hfield : r.fields[index]? = some field) {v : Value} {d : Datum}
    (hkeeps : Keeps names settings field.type v d) :
    Drafts names settings r.fields (Members.set field.wireName d members)
      (values.set index v) := by
  intro index' field' value hfield' hvalue
  rw [Members.get?_set]
  -- Distinct places have distinct document names, so the member of one field is set only.
  by_cases hindex : index' = index
  · subst hindex
    obtain rfl := Option.some.inj (hfield.symm.trans hfield')
    obtain ⟨hlt, hvalue⟩ := List.getElem?_eq_some_iff.mp hvalue
    rw [List.getElem_set_self] at hvalue
    rw [if_pos rfl, ← hvalue]
    exact hkeeps
  · have hne : field.wireName ≠ field'.wireName :=
      fun hname => hindex (RecordType.place_eq hnodup hfield' hfield hname.symm)
    rw [List.getElem?_set_ne (Ne.symm hindex)] at hvalue
    rw [if_neg hne]
    exact h index' field' value hfield' hvalue

/-- The binding sets a declared field to a constant of its type, and the member is what is written
    of it under the document name of the field, as `Keeps` says. -/
def Sets (names : Naming) (settings : Settings) (r : RecordType) (binding : String × Expr)
    (member : String × Datum) : Prop :=
  ∃ field v, r.field? binding.1 = some field ∧ binding.2 = .constant v field.type ∧
    member.1 = field.wireName ∧ Keeps names settings field.type v member.2

variable {bindings : List (String × Expr)} {data : List (String × Datum)}

/-- `Expr.evaluateBindings` sets the fields whose members are set meanwhile. The last binding of a
    field counts on both sides. -/
theorem evaluateBindings_drafts (hnodup : (r.fields.map Field.wireName).Nodup)
    (hsets : List.Forall₂ (Sets names settings r) bindings data)
    (h : Drafts names settings r.fields members values) :
    ∃ values', Expr.evaluateBindings ⟨r, values⟩ bindings = .ok ⟨r, values'⟩ ∧
      values'.length = values.length ∧
      Drafts names settings r.fields
        (data.foldl (fun done m => Members.set m.1 m.2 done) members) values' := by
  induction hsets generalizing members values with
  | nil => exact ⟨values, by rw [Expr.evaluateBindings], rfl, h⟩
  | @cons binding m bindings data hset hsets ih =>
    obtain ⟨name, e⟩ := binding
    obtain ⟨field, v, hfound, rfl, hname, hkeeps⟩ := hset
    -- The field keeps one place, and a later binding of it overwrites that place.
    obtain ⟨index, hindex, hfield⟩ := RecordType.exists_place_of_field? hfound
    -- `RecordValue.set` finds the field by its name, at that place.
    have hset : (RecordValue.mk r values).set name v = .ok ⟨r, values.set index v⟩ := by
      rw [RecordValue.set, RecordValue.indexOf, hindex]
      rfl
    obtain ⟨values', heval, hlength, hdrafts⟩ := ih (h.set hnodup hfield hkeeps)
    refine ⟨values', ?_, by rw [hlength, List.length_set], ?_⟩
    · rw [Expr.evaluateBindings, Expr.evaluate]
      show ((RecordValue.mk r values).set name v >>= _) = _
      rw [hset]
      exact heval
    · rw [List.foldl_cons, hname]
      exact hdrafts

/-! ## Both objects -/

/-- A value that `Keeps` is equal to itself. A `NaN` inside it would not be. -/
theorem Keeps.same_self {t : Ty} {v : Value} {d : Datum} (h : Keeps names settings t v d) :
    (v == v) = true := by
  obtain ⟨-, c, v', -, -, -, hsame⟩ := h
  exact Value.same_self hsame

/-- The converter that `build` makes writes and reads what the type `Keeps`. -/
theorem Keeps.of_build {t : Ty} {v : Value} {d : Datum} (h : Keeps names settings t v d)
    {c : Converter} (hbuild : build (defaults settings) t = .ok c) :
    c.write settings v = .ok d ∧ ∃ v', c.read settings d = .ok v' ∧ (v' == v) = true := by
  obtain ⟨-, c', v', hbuild', hwrite, hread, hsame⟩ := h
  -- `build` is a function, so there is no other converter.
  obtain rfl := Except.ok.inj (hbuild.symm.trans hbuild')
  exact ⟨hwrite, v', hread, hsame⟩

/-- Each value `Keeps`, with the type of the field at its place. -/
def KeepsAll (names : Naming) (settings : Settings) (fields : List Field) (values : List Value) :
    Prop :=
  ∀ (index : Nat) field value, fields[index]? = some field → values[index]? = some value →
    ∃ d, Keeps names settings field.type value d

/-- `KeepsAll` holds where the defaults of the fields that were not set are kept. -/
theorem Drafts.keepsAll (h : Drafts names settings r.fields members values)
    (hdefaults : ∀ field ∈ r.fields, Members.get? field.wireName members = none →
      ∃ d, Keeps names settings field.type field.default d) :
    KeepsAll names settings r.fields values := by
  intro index field value hfield hvalue
  have hdraft := h index field value hfield hvalue
  -- The member of the field is there already, or the default takes its place.
  cases hget : Members.get? field.wireName members with
  | some d =>
    rw [hget] at hdraft
    exact ⟨d, hdraft⟩
  | none =>
    rw [hget] at hdraft
    obtain rfl := hdraft
    exact hdefaults field (List.mem_of_getElem? hfield) hget

/-- A record with `KeepsAll` is over the naming, as its values are. -/
theorem named_record_of_keeps (hr : (Ty.record r).Named names)
    (hlength : values.length = r.fields.length)
    (hkeeps : KeepsAll names settings r.fields values) :
    (Value.record r values).Named names := by
  refine .intro hr fun v hv => ?_
  obtain ⟨index, hindex⟩ := List.mem_iff_getElem?.mp hv
  obtain ⟨field, hfield⟩ :=
    exists_getElem?_eq_some rfl (hlength ▸ (List.getElem?_eq_some_iff.mp hindex).1)
  obtain ⟨d, hv, -⟩ := hkeeps index field v hfield hindex
  exact hv

/-- Every field of a record with `KeepsAll` has a converter. -/
theorem exists_collect_build (hlength : values.length = r.fields.length)
    (hkeeps : KeepsAll names settings r.fields values) :
    ∃ cs, collect (build (defaults settings)) (r.fields.map Field.type) = .ok cs := by
  apply exists_collect_eq_ok
  intro t ht
  obtain ⟨field, hfield, rfl⟩ := List.mem_map.mp ht
  obtain ⟨index, hindex⟩ := List.mem_iff_getElem?.mp hfield
  obtain ⟨value, hvalue⟩ :=
    exists_getElem?_eq_some hlength (List.getElem?_eq_some_iff.mp hindex).1
  obtain ⟨d, -, c, -, hbuild, -⟩ := hkeeps index field value hindex hvalue
  -- The converter is the one with which the value of the field is kept.
  exact ⟨c, hbuild⟩

/-! ### With the converters of the fields -/

section Converters

variable {cs : List Converter}
  (hcs : List.Forall₂ (fun t c => build (defaults settings) t = .ok c) (r.fields.map Field.type) cs)

include hcs

/-- The converter at the place of a field is the one that `build` makes for its type. -/
theorem build_of_getElem? {index : Nat} {field : Field} {c : Converter}
    (hfield : r.fields[index]? = some field) (hc : cs[index]? = some c) :
    build (defaults settings) field.type = .ok c := by
  have htype : (r.fields.map Field.type)[index]? = some field.type := by
    rw [List.getElem?_map, hfield, Option.map_some]
  exact related_of_getElem? hcs htype hc

/-- With `Drafts`, the object of the members that were set tells the values in the sense of
    `Converter.Tells`. -/
theorem Drafts.tells (h : Drafts names settings r.fields members values)
    (hdefaults : ∀ field ∈ r.fields, Members.get? field.wireName members = none →
      ∃ d, Keeps names settings field.type field.default d) :
    Converter.Tells r.fields (cs.map (Converter.read settings)) (r.fields.map Field.default)
      members values := by
  intro index field reader old value hfield hreader hold hvalue
  rw [List.getElem?_map] at hreader
  obtain ⟨c, hc, rfl⟩ := Option.map_eq_some_iff.mp hreader
  have hdraft := h index field value hfield hvalue
  cases hget : Members.get? field.wireName members with
  -- A member was written of the value, and is read as an equal one.
  | some d =>
    rw [hget] at hdraft
    exact (Keeps.of_build hdraft (build_of_getElem? hcs hfield hc)).2
  -- A field without a member has its default as its value, and that is equal to itself.
  | none =>
    rw [hget] at hdraft
    obtain rfl := hdraft
    rw [List.getElem?_map, hfield] at hold
    obtain rfl := Option.some.inj hold
    obtain ⟨d, hkeeps⟩ := hdefaults field (List.mem_of_getElem? hfield) hget
    exact hkeeps.same_self

/-- With `Drafts`, the object of the members that were set is read as the values. -/
theorem Drafts.exists_read (h : Drafts names settings r.fields members values)
    (hdefaults : ∀ field ∈ r.fields, Members.get? field.wireName members = none →
      ∃ d, Keeps names settings field.type field.default d)
    (hnodup : (r.fields.map Field.wireName).Nodup) (hlength : values.length = r.fields.length)
    (hmembers : (members.map Prod.fst).Nodup) (htag : Datum.tagKey ∉ members.map Prod.fst) :
    ∃ values', (Converter.record r cs).read settings (.object members) = .ok (.record r values') ∧
      Value.sameItems values' values = true := by
  have hreaders : (cs.map (Converter.read settings)).length = r.fields.length := by
    rw [List.length_map, ← hcs.length_eq, List.length_map]
  rw [Converter.read_record]
  exact Converter.exists_decodeRecord hnodup hreaders hlength hmembers htag (h.tells hcs hdefaults)

/-- With `KeepsAll`, `Converter.encodeFields` writes the values. -/
theorem exists_encodeFields_of_keeps
    (hkeeps : KeepsAll names settings r.fields values) :
    ∃ written, Converter.encodeFields r.fields (cs.map (Converter.write settings)) values =
      .ok written := by
  apply Converter.exists_encodeFields
  intro index field writer value hfield hwriter hvalue
  rw [List.getElem?_map] at hwriter
  obtain ⟨c, hc, rfl⟩ := Option.map_eq_some_iff.mp hwriter
  obtain ⟨d, hd⟩ := hkeeps index field value hfield hvalue
  exact ⟨d, (hd.of_build (build_of_getElem? hcs hfield hc)).1⟩

/-- With `KeepsAll`, the converters give back the values in the sense of `Converter.GiveBack`. -/
theorem giveBack_of_keeps
    (hkeeps : KeepsAll names settings r.fields values) :
    Converter.GiveBack (cs.map (Converter.write settings)) (cs.map (Converter.read settings))
      values := by
  intro index writer reader value hwriter hreader hvalue d hd
  rw [List.getElem?_map] at hwriter hreader
  obtain ⟨c, hc, rfl⟩ := Option.map_eq_some_iff.mp hwriter
  -- The reader and the writer are of one converter, and it is the one of the field at their place.
  rw [hc] at hreader
  obtain rfl := Option.some.inj hreader
  have hcount : cs.length = r.fields.length := by
    rw [← hcs.length_eq, List.length_map]
  have hlt : index < r.fields.length := hcount ▸ (List.getElem?_eq_some_iff.mp hc).1
  have hfield : r.fields[index]? = some r.fields[index] := List.getElem?_eq_getElem hlt
  obtain ⟨d', hd'⟩ := hkeeps index _ value hfield hvalue
  obtain ⟨hwrite, hread⟩ := hd'.of_build (build_of_getElem? hcs hfield hc)
  -- What is known to be written is what was kept.
  obtain rfl := Except.ok.inj (hwrite.symm.trans hd)
  exact hread

/-- With `KeepsAll`, a record is written, and what was written is read as an equal record. -/
theorem exists_decodeRecord_of_keeps (hnodup : (r.fields.map Field.wireName).Nodup)
    (hreserved : Datum.tagKey ∉ r.fields.map Field.wireName)
    (hlength : values.length = r.fields.length)
    (hkeeps : KeepsAll names settings r.fields values) :
    ∃ written values',
      (Converter.record r cs).write settings (.record r values) = .ok (.object written) ∧
      (Converter.record r cs).read settings (.object written) = .ok (.record r values') ∧
      Value.sameItems values' values = true := by
  -- There are as many converters as fields, and as many values.
  have hcount : cs.length = r.fields.length := by
    rw [← hcs.length_eq, List.length_map]
  obtain ⟨written, hwritten⟩ := exists_encodeFields_of_keeps hcs hkeeps
  obtain ⟨values', hread, hsame⟩ := Converter.exists_decodeRecord_encodeFields hnodup hreserved
    ((List.length_map _).trans hcount) ((List.length_map _).trans hcount) hlength
    (giveBack_of_keeps hcs hkeeps) hwritten
  have hself : (Ty.record r == .record r) = true := Ty.same_refl _
  -- The record's type is that of the converter, so writing gets to the fields.
  refine ⟨written, values', ?_, ?_, hsame⟩
  · rw [Converter.write_record, Converter.encodeRecord, if_pos hself, hwritten]
    rfl
  · rw [Converter.read_record, hread]

end Converters

end Factory

end DocQuery
