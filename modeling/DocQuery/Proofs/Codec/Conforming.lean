import DocQuery.Proofs.Codec.Assignable
import DocQuery.Proofs.Codec.Reading
import DocQuery.Proofs.Datum.Finite
import DocQuery.Proofs.Schema.Conform

/-!
# What is read conforms and can be sent back

From a document with finite numbers an engine that writes tuples reads only values of the type that
it was asked for, also where the type is seen only from the document, and it can write each of them
again. The defaults of record fields get into values unread, so they have to be such values
themselves.

## Key results

- `Codec.Leaf.fits_of_decode`: leaf codecs write what they read
- `Factory.fits_of_read`: converters of the default chain write what they read
- `Engine.conforms_of_decode`: an engine reads values that conform and that it can write again
-/

namespace DocQuery

open Sequence (collect collectZip exists_of_bind_eq_ok exists_collect_eq_ok exists_of_forall₂)

variable {settings : Settings} {names : Naming}

/-- The value is one of the type, over the naming, and the converter can write it. -/
structure Value.Fits (settings : Settings) (names : Naming) (t : Ty) (c : Converter)
    (v : Value) : Prop where
  named : v.Named names
  conforms : v.Conforms t
  writes : ∃ d, c.write settings v = .ok d

/-! ## Leaf codecs -/

namespace Codec.Leaf

/-- `encodeEnum` writes a variant that `decodeEnum` found by its number or by its name. -/
theorem exists_encodeEnum {e : EnumType} {encoding : EnumEncoding} {d : Datum} {v : Value}
    (h : decodeEnum e encoding d = .ok v) : ∃ discriminant, v = .enum e discriminant ∧
      ∃ d', encodeEnum e encoding discriminant = .ok d' := by
  cases encoding with
  | numeric =>
    cases d with
    | number x =>
      obtain ⟨n, -, h⟩ := exists_of_bind_eq_ok h
      cases hname : e.nameOf? n.val with
      | none =>
        rw [hname] at h
        cases h
      | some name =>
        rw [hname] at h
        -- The number has a name, and numeric writing does not even look for it.
        exact ⟨n.val, (Except.ok.inj h).symm, _, rfl⟩
    | _ => cases h
  | name =>
    cases d with
    | string name =>
      rw [decodeEnum] at h
      cases hfound : e.discriminantOf? name with
      | none =>
        rw [hfound] at h
        cases h
      | some discriminant =>
        rw [hfound] at h
        -- The variant that was found has its number, so the number has a name.
        obtain ⟨variant, hvariant, rfl⟩ := Option.map_eq_some_iff.mp hfound
        have hmem : variant.2 ∈ e.variants.map Prod.snd :=
          List.mem_map_of_mem (List.mem_of_find?_eq_some hvariant)
        obtain ⟨other, hother, -⟩ := exists_nameOf? hmem
        exact ⟨variant.2, (Except.ok.inj h).symm, .string other, by rw [encodeEnum, hother]⟩
    | _ => cases h

/-- `encode` writes a whole number that `narrowTo` gave: it reads only safe ones. -/
theorem exists_encode_int {kind : IntKind} {x : Binary64} {n : kind.Number}
    (h : narrowTo kind x = .ok n) : ∃ d, Leaf.encode (.int kind) (.int kind n) = .ok d := by
  have hsafe := Datum.natAbs_le_of_safeInteger? (safeInteger?_of_narrowTo h)
  exact ⟨Datum.ofInt n.val, by rw [encode, if_neg (not_not.mpr rfl), if_pos hsafe]⟩

/-- `encode` of the narrow format writes a number that it has read from a finite one. -/
theorem exists_encode_f32 {x : Binary64} (hx : x.isFinite = true)
    (h : greatestSingle.lt x.abs = false) :
    ∃ d, Leaf.encode .f32 (.f32 (x.convert Format.single)) = .ok d := by
  have hsingle := isFinite_convert_single hx h
  -- The number is finite in the narrow format, so it is finite when it is widened to be written.
  rw [encode, finiteNumber, if_pos (Binary.isFinite_convert_double hsingle)]
  exact ⟨_, rfl⟩

/-- What a leaf codec reads with `decode` from documents with finite numbers `Fits` it: it is a
    value of its type, and `encode` writes it. -/
theorem fits_of_decode {codec : Leaf} (hcodec : names.Declares codec.type) {d : Datum}
    (hd : d.FiniteNode) {v : Value} (h : codec.decode d = .ok v) :
    v.Fits settings names codec.type (.leaf codec) := by
  -- Each codec has three things to show: the value names nothing unknown, has the type, and is
  -- written.
  have hfits : v.Named names → v.Conforms codec.type → (∃ d', codec.encode v = .ok d') →
      v.Fits settings names codec.type (.leaf codec) := by
    intro hnamed hconforms hwrites
    obtain ⟨d', hd'⟩ := hwrites
    exact ⟨hnamed, hconforms, d', by rw [Converter.write_leaf, hd']⟩
  cases codec with
  | bool =>
    cases d with
    | bool b =>
      obtain rfl := Except.ok.inj h
      exact hfits (.of_leaf rfl trivial) (.bool b) ⟨_, rfl⟩
    | _ => cases h
  | char =>
    cases d with
    | string s =>
      rw [decode] at h
      -- Only a text of one character is read.
      split at h
      · obtain rfl := Except.ok.inj h
        exact hfits (.of_leaf rfl trivial) (.char _) ⟨_, rfl⟩
      · cases h
    | _ => cases h
  | string =>
    cases d with
    | string s =>
      obtain rfl := Except.ok.inj h
      exact hfits (.of_leaf rfl trivial) (.string s) ⟨_, rfl⟩
    | _ => cases h
  | int kind =>
    cases d with
    | number x =>
      -- The number is safe, as it was narrowed from a number that was.
      obtain ⟨n, hn, rfl⟩ := Sequence.exists_of_map_eq_ok h
      exact hfits (.of_leaf rfl trivial) (.int kind n) (exists_encode_int hn)
    | _ => cases h
  | f32 =>
    cases d with
    | number x =>
      rw [decode] at h
      -- What is too great for the narrow format is refused, so the converted number is finite.
      split_ifs at h with hgreat
      obtain rfl := Except.ok.inj h
      exact hfits (.of_leaf rfl trivial) (.f32 _)
        (exists_encode_f32 hd (Bool.eq_false_iff.mpr hgreat))
    | _ => cases h
  | f64 =>
    cases d with
    | number x =>
      obtain rfl := Except.ok.inj h
      -- A document with finite numbers has none that cannot be written.
      have hx : x.isFinite = true := hd
      refine hfits (.of_leaf rfl trivial) (.f64 x) ⟨.number x, ?_⟩
      rw [encode, finiteNumber, if_pos hx]
    | _ => cases h
  | uuid =>
    cases d with
    | string s =>
      rw [decode] at h
      -- Identifiers and locators that were read are written as their texts, whatever they are.
      split at h
      · obtain rfl := Except.ok.inj h
        exact hfits (.of_leaf rfl trivial) (.uuid _) ⟨_, rfl⟩
      · cases h
    | _ => cases h
  | url =>
    cases d with
    | string s =>
      rw [decode] at h
      split at h
      · obtain rfl := Except.ok.inj h
        exact hfits (.of_leaf rfl trivial) (.url _) ⟨_, rfl⟩
      · cases h
    | _ => cases h
  | binary =>
    cases d with
    -- Of the types without parts only that of bytes reads null.
    | null =>
      obtain rfl := Except.ok.inj h
      exact hfits (.of_leaf rfl trivial) (.null rfl) ⟨_, rfl⟩
    | _ =>
      obtain ⟨bytes, _, rfl, -⟩ := exists_of_decodeBinary h
      exact hfits (.of_leaf rfl trivial) (.binary bytes) ⟨_, rfl⟩
  | instant millis =>
    -- Times and spans are always written, as instants have a number.
    obtain ⟨t, -, rfl⟩ := Sequence.exists_of_map_eq_ok h
    exact hfits (.of_leaf rfl trivial) (.instant _) ⟨_, rfl⟩
  | zoned millis =>
    obtain ⟨t, -, rfl⟩ := Sequence.exists_of_map_eq_ok h
    exact hfits (.of_leaf rfl trivial) (.zoned t) ⟨_, rfl⟩
  | span =>
    cases d with
    | number x =>
      obtain ⟨s, -, rfl⟩ := Sequence.exists_of_map_eq_ok h
      exact hfits (.of_leaf rfl trivial) (.span s) ⟨_, rfl⟩
    | _ => cases h
  | enum e encoding =>
    -- The enumeration is over the naming, so its value is too.
    obtain ⟨discriminant, rfl, d', hd'⟩ := exists_encodeEnum h
    refine hfits (.of_leaf rfl (.of_leaf rfl hcodec)) (.enum e discriminant) ⟨d', ?_⟩
    rw [encode, if_pos rfl, hd']

end Codec.Leaf

/-! ## Containers -/

namespace Value.Fits

variable {t : Ty} {c : Converter}

/-- Null fits the types that are `isNullable`, for which it means absence. -/
theorem null (nullable : t.isNullable = true) (hwrite : c.write settings .null = .ok .null) :
    Value.null.Fits settings names t c :=
  ⟨.of_leaf rfl trivial, .null nullable, _, hwrite⟩

/-- What fits a type fits its `option`. -/
theorem option {v : Value} (h : v.Fits settings names t c) :
    v.Fits settings names (.option t) (.nullable (.option t) c) := by
  refine ⟨h.named, .option h.conforms, ?_⟩
  rw [Converter.write_nullable]
  split
  · exact ⟨_, rfl⟩
  · exact h.writes

/-- Items that fit make a `list` that fits. -/
theorem list {items : List Value} (h : ∀ item ∈ items, item.Fits settings names t c) :
    (Value.list items).Fits settings names (.list t) (.list (.list t) c) := by
  refine ⟨.intro trivial fun item hitem => (h item hitem).named,
    .list fun item hitem => (h item hitem).conforms, ?_⟩
  obtain ⟨ds, hds⟩ := exists_collect_eq_ok fun item hitem => (h item hitem).writes
  exact ⟨.array ds, by rw [Converter.write_list, Converter.encodeList, hds]; rfl⟩

/-- Values that fit make a `map` that fits, whatever their keys are. -/
theorem map {entries : List (String × Value)}
    (h : ∀ entry ∈ entries, entry.2.Fits settings names t c) :
    (Value.map entries).Fits settings names (.map t) (.map (.map t) c) := by
  refine ⟨.intro trivial fun value hvalue => ?_, .map fun entry hentry => (h entry hentry).conforms,
    ?_⟩
  · obtain ⟨entry, hentry, rfl⟩ := List.mem_map.mp hvalue
    exact (h entry hentry).named
  · -- An entry is written where its value is.
    have hentries : ∀ entry ∈ entries, ∃ member,
        Converter.encodeEntry (c.write settings) entry = .ok member := by
      intro entry hentry
      obtain ⟨d, hd⟩ := (h entry hentry).writes
      exact ⟨(entry.1, d), by rw [Converter.encodeEntry, hd]; rfl⟩
    obtain ⟨members, hmembers⟩ := exists_collect_eq_ok hentries
    exact ⟨.object members, by rw [Converter.write_map, Converter.encodeMap, hmembers]; rfl⟩

/-- Keys and values that fit make a `grouping` that fits. -/
theorem grouping {k : Ty} {kc : Converter} {groups : List (Value × Value)}
    (hkeys : ∀ group ∈ groups, group.1.Fits settings names k kc)
    (hvalues : ∀ group ∈ groups, group.2.Fits settings names t c) :
    (Value.grouping groups).Fits settings names (.grouping k t)
      (.grouping (.grouping k t) kc c) := by
  refine ⟨.intro trivial fun part hpart => ?_,
    .grouping (fun group hgroup => (hkeys group hgroup).conforms)
      fun group hgroup => (hvalues group hgroup).conforms, ?_⟩
  · obtain ⟨group, hgroup, hpart⟩ := List.mem_flatMap.mp hpart
    simp only [List.mem_cons, List.not_mem_nil, or_false] at hpart
    rcases hpart with rfl | rfl
    · exact (hkeys group hgroup).named
    · exact (hvalues group hgroup).named
  · -- A group is written where its key and its value are.
    have hgroups : ∀ group ∈ groups, ∃ d,
        Converter.encodeGroup (kc.write settings) (c.write settings) group = .ok d := by
      intro group hgroup
      obtain ⟨first, hfirst⟩ := (hkeys group hgroup).writes
      obtain ⟨second, hsecond⟩ := (hvalues group hgroup).writes
      exact ⟨.array [first, second], by rw [Converter.encodeGroup, hfirst, hsecond]; rfl⟩
    obtain ⟨ds, hds⟩ := exists_collect_eq_ok hgroups
    refine ⟨.object [(Datum.tagKey, .string Datum.groupedTag), ("data", .array ds)], ?_⟩
    rw [Converter.write_grouping, Converter.encodeGrouping, hds]
    rfl

/-- Each value fits the type and the converter at its place. -/
abbrev Places (settings : Settings) (names : Naming) (ts : List Ty) (cs : List Converter) :
    List Value → Prop :=
  List.Forall₂ (fun place v => Value.Fits settings names place.1 place.2 v) (ts.zip cs)

variable {ts : List Ty} {cs : List Converter} {values : List Value}

/-- Values in fitting `Places` are over the naming. -/
theorem Places.named (h : Places settings names ts cs values) :
    ∀ v ∈ values, Value.Named names v := by
  intro v hv
  obtain ⟨place, -, hfits⟩ := exists_of_forall₂ h v hv
  exact hfits.named

/-- Values in fitting `Places` are values of the types there. -/
theorem Places.conforms (h : Places settings names ts cs values) (hlength : ts.length = cs.length) :
    List.Forall₂ (fun t v => Value.Conforms v t) ts values := by
  rw [← List.map_fst_zip hlength.le, List.forall₂_map_left_iff]
  exact h.imp fun place v hfits => hfits.conforms

/-- Values in fitting `Places` are written by the converters there. -/
theorem Places.writes (h : Places settings names ts cs values) (hlength : ts.length = cs.length) :
    List.Forall₂ (fun c v => ∃ d, Converter.write settings c v = .ok d) cs values := by
  rw [← List.map_snd_zip hlength.ge, List.forall₂_map_left_iff]
  exact h.imp fun place v hfits => hfits.writes

/-- `collectZip` writes items together that are written at their places. -/
theorem exists_collectZip_eq_ok
    (h : List.Forall₂ (fun c v => ∃ d, Converter.write settings c v = .ok d) cs values) :
    ∃ ds, collectZip (cs.map (Converter.write settings)) values = .ok ds := by
  induction h with
  | nil => exact ⟨[], rfl⟩
  | cons hd _ ih =>
    obtain ⟨d, hd⟩ := hd
    obtain ⟨ds, hds⟩ := ih
    exact ⟨d :: ds, by rw [List.map_cons, collectZip, hd, hds]; rfl⟩

/-- `encodeFields` writes fields together that can be written at their places, save those that are
    left out. -/
theorem exists_encodeFields_eq_ok
    (h : List.Forall₂ (fun c v => ∃ d, Converter.write settings c v = .ok d) cs values)
    (declared : List Field) :
    ∃ members, Converter.encodeFields declared (cs.map (Converter.write settings)) values =
      .ok members := by
  induction h generalizing declared with
  | nil => exact ⟨[], by cases declared <;> rfl⟩
  | cons hd _ ih =>
    cases declared with
    | nil => exact ⟨[], rfl⟩
    | cons field declared =>
      obtain ⟨d, hd⟩ := hd
      obtain ⟨members, hmembers⟩ := ih declared
      rw [List.map_cons, Converter.encodeFields]
      -- A default that need not be written is left out, whether it could be or not.
      split
      · exact ⟨(field.wireName, d) :: members, by rw [hd, hmembers]; rfl⟩
      · exact ⟨members, hmembers⟩

/-- Items in fitting `Places` make a `tuple` that fits, where tuples are written. -/
theorem tuple (htuple : settings.tupleEncoding = true) (hlength : ts.length = cs.length)
    (h : Places settings names ts cs values) :
    (Value.tuple values).Fits settings names (.tuple ts)
      (.tuple (.tuple ts) cs settings.tupleEncoding) := by
  refine ⟨.intro trivial h.named, .tuple (h.conforms hlength), ?_⟩
  -- Each value is written by the converter at its place, so all of them are.
  have hwrites := h.writes hlength
  obtain ⟨ds, hds⟩ := exists_collectZip_eq_ok hwrites
  refine ⟨.array ds, ?_⟩
  rw [Converter.write_tuple, htuple]
  unfold Converter.encodeTuple
  -- The encoding is on, and there are as many values as converters.
  rw [if_neg (by decide)]
  dsimp only
  rw [List.length_map, if_pos hwrites.length_eq.symm, hds]
  rfl

/-- Values in fitting `Places` of the fields make a `record` that fits. -/
theorem record {r : RecordType} (hr : (Ty.record r).Named names)
    (hlength : r.fields.length = cs.length)
    (h : Places settings names (r.fields.map Field.type) cs values) :
    (Value.record r values).Fits settings names (.record r) (.record r cs) := by
  have hlength : (r.fields.map Field.type).length = cs.length := by rw [List.length_map, hlength]
  refine ⟨.intro hr h.named,
    .record (List.forall₂_map_left_iff.mp (h.conforms hlength)), ?_⟩
  -- Every field can be written, whether or not it is left out in the end.
  obtain ⟨members, hmembers⟩ := exists_encodeFields_eq_ok (h.writes hlength) r.fields
  have hsame : (Ty.record r == Ty.record r) = true := Ty.same_refl _
  refine ⟨.object members, ?_⟩
  rw [Converter.write_record, Converter.encodeRecord, if_pos hsame, hmembers]
  rfl

end Value.Fits

/-! ## Reading -/

/-- The default of every field is a value of the field's type that an engine can write as it. -/
def Ty.DefaultsFitNode (settings : Settings) (names : Naming) : Ty → Prop
  | .record r => ∀ field ∈ r.fields, field.default.Named names ∧
      field.default.Conforms field.type ∧
      ∃ d, ((Engine.ofSettings settings).encode field.type field.default).answer = .ok d
  | _ => True

/-- The defaults of all records in the type, at every depth, are values of their fields. -/
abbrev Ty.DefaultsFit (settings : Settings) (names : Naming) : Ty → Prop :=
  Everywhere Ty.components (Ty.DefaultsFitNode settings names)

namespace Factory

open Converter (reading_induction)

/-- The default of a field `Fits` the converter that the chain builds for the field. -/
theorem default_fits {field : Field} {c : Converter} (ht : field.type.Named names)
    (hnamed : field.default.Named names) (hconforms : field.default.Conforms field.type)
    (hwrite : ∃ d, ((Engine.ofSettings settings).encode field.type field.default).answer = .ok d)
    (hc : build (defaults settings) field.type = .ok c) :
    field.default.Fits settings names field.type c := by
  obtain ⟨d, hd⟩ := hwrite
  refine ⟨hnamed, hconforms, d, ?_⟩
  -- The engine starts with an empty cache, so it writes by the bare converter.
  rw [Session.answer, Engine.encode_eq_write ht hnamed .refl, hc] at hd
  exact hd

/-- The readers of parts read values in fitting `Places`. -/
theorem places_of_readers {ts : List Ty} {cs : List Converter} {values : List Value}
    {parts : List Datum}
    (hcs : List.Forall₂ (fun t c => build (defaults settings) t = .ok c) ts cs)
    (hparts : ∀ t ∈ ts, ∀ c, build (defaults settings) t = .ok c → ∀ p ∈ parts, ∀ v,
      c.read settings p = .ok v → v.Fits settings names t c)
    (h : List.Forall₂ (fun reader v => ∃ p ∈ parts, reader p = .ok v)
      (cs.map (Converter.read settings)) values) :
    Value.Fits.Places settings names ts cs values := by
  rw [List.forall₂_map_left_iff] at h
  -- Induction on types and converters, which the readers go along with.
  induction hcs generalizing values with
  | nil =>
    cases h
    exact .nil
  | @cons t c ts cs hc _ ih =>
    cases h with
    | cons hread hreads =>
      obtain ⟨p, hp, hread⟩ := hread
      exact .cons (hparts t (.head _) c hc p hp _ hread)
        (ih (fun t ht => hparts t (.tail _ ht)) hreads)

/-- The defaults of fields are values in fitting `Places`. -/
theorem places_of_defaults {fields : List Field} {cs : List Converter}
    (hdefaults : ∀ field ∈ fields, field.default.Named names ∧
      field.default.Conforms field.type ∧
      ∃ d, ((Engine.ofSettings settings).encode field.type field.default).answer = .ok d)
    (hnamed : ∀ field ∈ fields, field.type.Named names)
    (hcs : List.Forall₂ (fun t c => build (defaults settings) t = .ok c)
      (fields.map Field.type) cs) :
    Value.Fits.Places settings names (fields.map Field.type) cs (fields.map Field.default) := by
  -- Induction on the fields, each with its converter and its default.
  induction fields generalizing cs with
  | nil =>
    cases hcs
    exact .nil
  | cons field fields ih =>
    rw [List.forall_mem_cons] at hdefaults hnamed
    cases hcs with
    | cons hc hcs =>
      obtain ⟨hdefault, hconforms, hwrite⟩ := hdefaults.1
      exact .cons (default_fits hnamed.1 hdefault hconforms hwrite hc)
        (ih hdefaults.2 hnamed.2 hcs)

/-- For types that documents have by themselves `DefaultsFit`: they have no records. -/
theorem defaultsFit_of_inferable {t : Ty} (h : t.Inferable) : t.DefaultsFit settings names :=
  h.imp fun t ht => by cases t <;> trivial

/-- What a converter that goes down reads from a `Finite` document `Fits` it, where that is so of
    everything that lies deeper. -/
theorem fits_of_read_guarded (htuple : settings.tupleEncoding = true) {t : Ty} {d : Datum}
    (hdynamic : t ≠ .dynamic) (hoption : ∀ inner, t ≠ .option inner)
    (hparts : ∀ s ∈ t.components, ∀ c, build (defaults settings) s = .ok c → ∀ p : Datum,
      p.depth < d.depth → p.Finite → ∀ v, c.read settings p = .ok v →
        v.Fits settings names s c)
    (ht : t.Named names) (hdefaults : t.DefaultsFitNode settings names) {c : Converter}
    (hc : build (defaults settings) t = .ok c) (hd : d.Finite) {v : Value}
    (h : c.read settings d = .ok v) : v.Fits settings names t c := by
  -- Direct parts lie deeper by one.
  have hmem : ∀ s ∈ t.components, ∀ c, build (defaults settings) s = .ok c → ∀ p ∈ d.parts, ∀ v,
      c.read settings p = .ok v → v.Fits settings names s c :=
    fun s hs c hc p hp => hparts s hs c hc p (Datum.depth_lt_of_mem_parts hp) (hd.at_part hp)
  cases builds_of_build hc with
  | leaf hleaf =>
    have htype := type_of_leaf? hleaf
    rw [Converter.read_leaf] at h
    exact htype ▸ Codec.Leaf.fits_of_decode (htype ▸ ht.at_top) hd.at_top h
  | option _ => exact absurd rfl (hoption _)
  | dynamic => exact absurd rfl hdynamic
  | list element =>
    rw [Converter.read_list] at h
    rcases Converter.exists_of_decodeList h with ⟨rfl, rfl⟩ | ⟨ds, items, rfl, rfl, hitems⟩
    · exact .null rfl (by rw [Converter.write_list]; rfl)
    · refine .list fun item hitem => ?_
      obtain ⟨p, hp, hread⟩ := exists_of_forall₂ hitems item hitem
      exact hmem _ (.head _) _ element p hp item hread
  | map value =>
    rw [Converter.read_map] at h
    rcases Converter.exists_of_decodeMap h with
      ⟨rfl, rfl⟩ | ⟨members, decoded, entries, rfl, -, rfl, hdecoded, hperm, -⟩
    · exact .null rfl (by rw [Converter.write_map]; rfl)
    · refine .map fun entry hentry => ?_
      -- The entries are sorted, but each comes from a member.
      obtain ⟨m, hm, -, hread⟩ := exists_of_forall₂ hdecoded entry (hperm.subset hentry)
      exact hmem _ (.head _) _ value m.2 (List.mem_map_of_mem hm) entry.2 hread
  | grouping key value =>
    rw [Converter.read_grouping] at h
    rcases Converter.exists_of_decodeGrouping h with
      ⟨rfl, rfl⟩ | ⟨pairs, groups, -, hdata, rfl, hgroups⟩
    · exact .null rfl (by rw [Converter.write_grouping]; rfl)
    · -- The groups lie in an array in an array in the object.
      have hpairs : (Datum.array pairs).Finite := hd.at_part (Datum.mem_parts_of_get? hdata)
      refine .grouping (fun group hgroup => ?_) fun group hgroup => ?_
      · obtain ⟨pair, hpair, k, w, rfl, hk, -⟩ := exists_of_forall₂ hgroups group hgroup
        exact hparts _ (.head _) _ key k (Converter.depth_lt_of_readsGroup hdata hpair rfl).1
          ((hpairs.at_part hpair).at_part (.head _)) _ hk
      · obtain ⟨pair, hpair, k, w, rfl, -, hw⟩ := exists_of_forall₂ hgroups group hgroup
        exact hparts _ (.tail _ (.head _)) _ value w
          (Converter.depth_lt_of_readsGroup hdata hpair rfl).2
          ((hpairs.at_part hpair).at_part (.tail _ (.head _))) _ hw
  | tuple _ items =>
    rw [Converter.read_tuple] at h
    obtain ⟨values, rfl, hvalues⟩ := Converter.exists_of_decodeTuple h
    exact .tuple htuple items.length_eq (places_of_readers items hmem hvalues)
  | @record r cs fields =>
    rw [Converter.read_record] at h
    -- A field that is given has a value from its member, at the place of the field; the others hold
    -- their defaults.
    have hread : ∀ (index : Nat) place, ((r.fields.map Field.type).zip cs)[index]? = some place →
        ∀ reader ∈ (cs.map (Converter.read settings))[index]?, ∀ p ∈ d.parts, ∀ v,
          reader p = .ok v → Value.Fits settings names place.1 place.2 v := by
      intro index place hplace reader hreader p hp v hv
      rw [List.getElem?_map, (List.getElem?_zip_eq_some.mp hplace).2] at hreader
      obtain rfl := Option.some.inj hreader
      have hmemplace := List.mem_of_getElem? hplace
      exact hmem _ (List.of_mem_zip hmemplace).1 _ (List.forall₂_zip fields hmemplace) p hp v hv
    have hdefault := places_of_defaults hdefaults
      (fun field hfield => ht.at_part (List.mem_map_of_mem hfield)) fields
    rcases Converter.exists_of_decodeRecord hread hdefault h with
      ⟨rfl, rfl⟩ | ⟨values, rfl, hvalues⟩
    · exact .null rfl (by rw [Converter.write_record]; rfl)
    · have hlength := fields.length_eq
      rw [List.length_map] at hlength
      exact .record ht hlength hvalues

/-- What a converter of the default chain reads from a `Finite` document `Fits` it. -/
theorem fits_of_read (htuple : settings.tupleEncoding = true) {t : Ty} {d : Datum} {c : Converter}
    (ht : t.Named names) (hdefaults : t.DefaultsFit settings names)
    (hc : build (defaults settings) t = .ok c) (hd : d.Finite) {v : Value}
    (h : c.read settings d = .ok v) : v.Fits settings names t c := by
  revert c v
  refine reading_induction (motive := fun t d => t.Named names → t.DefaultsFit settings names →
    d.Finite → ∀ {c : Converter}, build (defaults settings) t = .ok c → ∀ {v : Value},
      c.read settings d = .ok v → v.Fits settings names t c) ?_ ?_ ?_ t d ht hdefaults hd
  · -- A converter that goes down.
    intro t d hdynamic hoption ih ht hdefaults hd c hc v h
    refine fits_of_read_guarded htuple hdynamic hoption (fun s hs c hc p hp hfinite v h => ?_) ht
      hdefaults.at_top hc hd h
    exact ih s p hp (ht.at_part hs) (hdefaults.at_part hs) hfinite hc h
  · -- Null is absence, and anything else is read as the inner type.
    intro inner d ih ht hdefaults hd c hc v h
    cases builds_of_build hc with
    | leaf hleaf => cases hleaf
    | option hinner =>
      rw [Converter.read_nullable] at h
      split at h
      · obtain rfl := Except.ok.inj h
        exact .null rfl (by rw [Converter.write_nullable]; rfl)
      · exact (ih (Ty.named_option.mp ht) (hdefaults.at_part (.head _)) hd hinner h).option
  · -- The type is seen from the document, and the value that it gives is written dynamically.
    intro d ih _ _ hd c hc v h
    rw [build_dynamic] at hc
    obtain rfl := Except.ok.inj hc
    rw [Converter.read_dynamic] at h
    obtain ⟨t, hinfer, h⟩ := exists_of_bind_eq_ok h
    split at h
    · obtain rfl := Except.ok.inj h
      exact .null rfl (by rw [Converter.write_dynamic]; rfl)
    · rename_i hdynamic
      obtain ⟨c, hc, h⟩ := exists_of_bind_eq_ok h
      have hinferable := Datum.inferable_of_inferType hinfer
      have hne : t ≠ .dynamic := by
        rintro rfl
        exact hdynamic (Ty.same_refl _)
      -- The inferred type has no defaults to fit, so the value fits it, and the dynamic type writes
      -- what that type writes.
      have hfits := ih t hne (Datum.inferType_ne_option hinfer) hinferable.named
        (defaultsFit_of_inferable hinferable) hd hc h
      obtain ⟨d', hd'⟩ := hfits.writes
      exact ⟨hfits.named, .dynamic v, d',
        write_dynamic_of_write hinferable.named hfits.named hc hd'⟩

end Factory

/-! ## Engines -/

namespace Engine

variable {cache later : ConverterCache}

/-- What an engine that writes tuples reads with `decode` from a `Finite` document is a value of the
    type that it was asked for, and the engine can `encode` it as that type, whatever it was asked
    for before reading and before writing. -/
theorem conforms_of_decode (htuple : settings.tupleEncoding = true) {t : Ty} (ht : t.Named names)
    (hdefaults : t.DefaultsFit settings names) {d : Datum} (hd : d.Finite)
    (hcache : (ofSettings settings).Leads names .empty cache)
    (hlater : (ofSettings settings).Leads names .empty later) {v : Value}
    (hdecode : (((ofSettings settings).decode t d).run cache).1 = .ok v) :
    v.Conforms t ∧ ∃ d', (((ofSettings settings).encode t v).run later).1 = .ok d' := by
  -- Both requests are answered as by the bare chain, whatever was asked before.
  rw [decode_eq_read ht d hcache] at hdecode
  obtain ⟨c, hc, hread⟩ := exists_of_bind_eq_ok hdecode
  have hfits := Factory.fits_of_read htuple ht hdefaults hc hd hread
  obtain ⟨d', hd'⟩ := hfits.writes
  refine ⟨hfits.conforms, d', ?_⟩
  rw [encode_eq_write ht hfits.named hlater, hc]
  exact hd'

/-- A text, and something that is seen only from its document. -/
def noteType : RecordType := ⟨"Note", .declared,
  [⟨"text", "t", .string, true, .string ""⟩, ⟨"extra", "x", .dynamic, true, .null⟩]⟩

def noteNaming : Naming := ⟨fun name => ⟨name, []⟩, fun _ _ => noteType⟩

/-- The text is missing. -/
def noteDatum : Datum := .object [("x", .array [.bool true, .null])]

def note : Value := .record noteType [.string "", .list [.bool true, .null]]

/-- The type of notes is over `noteNaming`. -/
theorem named_noteType : (Ty.record noteType).Named noteNaming := by
  refine .intro rfl ?_
  simp only [Ty.components, noteType, List.map, List.forall_mem_cons]
  exact ⟨.of_leaf rfl trivial, .of_leaf rfl trivial, List.forall_mem_nil _⟩

/-- `DefaultsFit` for the type of notes: an empty text and null are written. -/
theorem defaultsFit_noteType : (Ty.record noteType).DefaultsFit tupleSettings noteNaming := by
  have hstring : (Ty.string).Named noteNaming := .of_leaf rfl trivial
  have hempty : (Value.string "").Named noteNaming := .of_leaf rfl trivial
  have hnull : Value.null.Named noteNaming := .of_leaf rfl trivial
  -- One goal for the defaults of the two fields and one for the types of the fields.
  refine .intro ?_ ?_
  · simp only [Ty.DefaultsFitNode, noteType, List.forall_mem_cons]
    refine ⟨⟨hempty, .string "", .string "", ?_⟩, ⟨hnull, .dynamic _, .null, ?_⟩,
      List.forall_mem_nil _⟩
    · -- The text "" by the codec of texts.
      rw [Session.answer, encode_eq_write hstring hempty .refl, Factory.build_leaf rfl]
      show Converter.write tupleSettings _ _ = _
      rw [Converter.write_leaf]
      rfl
    · -- Null by the dynamic converter.
      rw [Session.answer, encode_eq_write Ty.named_dynamic hnull .refl, Factory.build_dynamic]
      show Converter.write tupleSettings _ _ = _
      rw [Converter.write_dynamic]
      rfl
  · simp only [Ty.components, noteType, List.map, List.forall_mem_cons]
    exact ⟨.of_leaf rfl trivial, .of_leaf rfl trivial, List.forall_mem_nil _⟩

/-- The document `noteDatum` has no numbers, so it is `Finite`. -/
theorem finite_noteDatum : noteDatum.Finite := by
  refine .intro trivial ?_
  simp only [noteDatum, Datum.parts, List.map, List.forall_mem_cons]
  refine ⟨.intro trivial ?_, List.forall_mem_nil _⟩
  simp only [Datum.parts, List.forall_mem_cons]
  exact ⟨.of_leaf rfl trivial, .of_leaf rfl trivial, List.forall_mem_nil _⟩

/-- The document `noteDatum` is read as `note`: the array as a list of options, and the missing text
    as the default. -/
theorem decode_noteDatum :
    (((ofSettings tupleSettings).decode (.record noteType) noteDatum).run .empty).1 = .ok note := by
  -- The member `x` is read as a list of options, as its items are a Boolean and a null.
  have hextra : Converter.dynamic.read tupleSettings (.array [.bool true, .null]) =
      .ok (.list [.bool true, .null]) := by
    have hinfer : (Datum.array [.bool true, .null]).inferType = .ok (.list (.option .bool)) := by
      simp [Datum.inferType, Datum.inferItems, Datum.isNull, Datum.itemType, Ty.isNullable]
      rfl
    have hbuild : Factory.build (Factory.defaults tupleSettings) (.list (.option .bool)) =
        .ok (.list (.list (.option .bool)) (.nullable (.option .bool) (.leaf .bool))) := by
      rw [Factory.build_list, Factory.build_option, Factory.build_leaf rfl]
      rfl
    rw [Converter.read_dynamic, hinfer]
    show Factory.build (Factory.defaults tupleSettings) (.list (.option .bool)) >>= _ = _
    rw [hbuild]
    show Converter.read tupleSettings _ _ = _
    rw [Converter.read_list]
    simp only [Converter.decodeList, collect, Converter.read_nullable, Converter.read_leaf]
    rfl
  have hbuild : Factory.build (Factory.defaults tupleSettings) (.record noteType) =
      .ok (.record noteType [.leaf .string, .dynamic]) := by
    rw [Factory.build_record]
    simp only [noteType, List.map, collect, Factory.build_dynamic]
    rw [Factory.build_leaf rfl]
    rfl
  rw [decode_eq_read named_noteType _ .refl, hbuild]
  show Converter.read tupleSettings _ noteDatum = _
  rw [Converter.read_record, noteDatum]
  -- The field of `x` is the second, and the first keeps its default.
  have hfield : noteType.fieldByWireName? "x" = some (1, ⟨"extra", "x", .dynamic, true, .null⟩) :=
    rfl
  have htag : (Datum.object [("x", .array [.bool true, .null])]).tag? = none := rfl
  rw [Converter.decodeRecord, htag, if_neg (by decide), Converter.decodeFields, hfield]
  show (Converter.dynamic.read tupleSettings _ >>= _) >>= _ = _
  rw [hextra]
  rfl

/-- The `note` that was read can be written by the engine that read it. -/
theorem conforms_of_decode_noteDatum :
    (tupleSettings.tupleEncoding = true ∧ (Ty.record noteType).Named noteNaming ∧
      (Ty.record noteType).DefaultsFit tupleSettings noteNaming ∧ noteDatum.Finite ∧
      (ofSettings tupleSettings).Leads noteNaming .empty .empty ∧
      (ofSettings tupleSettings).Leads noteNaming .empty
        ((ofSettings tupleSettings).serve .empty (.decode (.record noteType) noteDatum)) ∧
      (((ofSettings tupleSettings).decode (.record noteType) noteDatum).run .empty).1 =
        .ok note) ∧
    note.Conforms (.record noteType) ∧
      ∃ d', (((ofSettings tupleSettings).encode (.record noteType) note).run
        ((ofSettings tupleSettings).serve .empty (.decode (.record noteType) noteDatum))).1 =
          .ok d' := by
  -- By the time of writing the cache holds what reading has put there.
  have hlater : (ofSettings tupleSettings).Leads noteNaming .empty
      ((ofSettings tupleSettings).serve .empty (.decode (.record noteType) noteDatum)) :=
    .single ⟨.decode _ _, named_noteType, rfl⟩
  exact ⟨⟨rfl, named_noteType, defaultsFit_noteType, finite_noteDatum, .refl, hlater,
      decode_noteDatum⟩,
    conforms_of_decode rfl named_noteType defaultsFit_noteType finite_noteDatum .refl hlater
      decode_noteDatum⟩

end Engine

end DocQuery
