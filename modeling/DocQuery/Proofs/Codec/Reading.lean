import DocQuery.Proofs.Codec.Dynamic
import DocQuery.Proofs.Codec.Entries

/-!
# What readers read

A reader that reads well has read each part well. Here is for each container what it was read from
and what its parts were read from. Every part lies deeper than the document, and a converter that
passes a document on is followed by one that does not, so claims on reading are proved by induction
on the depth of documents.

## Key results

- `Converter.exists_of_decodeList` and the like: what containers are read from
- `Converter.reading_induction`: induction along the reading of documents
-/

namespace DocQuery

/-! ## Containers -/

namespace Converter

open Sequence (collect collectZip exists_of_bind_eq_ok forall₂_of_collect)

variable {read second : Datum → Except Error Value} {d : Datum} {v : Value}

/-- A list is read item by item from an `array`, or it is `null`. -/
theorem exists_of_decodeList (h : decodeList read d = .ok v) :
    (d = .null ∧ v = .null) ∨ ∃ ds items, d = .array ds ∧ v = .list items ∧
      List.Forall₂ (fun d item => read d = .ok item) ds items := by
  cases d with
  | null => exact .inl ⟨rfl, (Except.ok.inj h).symm⟩
  | array ds =>
    obtain ⟨items, hitems, h⟩ := exists_of_bind_eq_ok h
    exact .inr ⟨ds, items, rfl, (Except.ok.inj h).symm, forall₂_of_collect hitems⟩
  | _ => cases h

/-- A map is read member by member from an `object` that is no pseudo type, or it is `null`. Its
    entries are those that were read, in the order of their keys. -/
theorem exists_of_decodeMap (h : decodeMap read d = .ok v) :
    (d = .null ∧ v = .null) ∨ ∃ members decoded entries, d = .object members ∧ d.tag? = none ∧
      v = .map entries ∧ List.Forall₂ (ReadsEntry read) members decoded ∧ entries.Perm decoded ∧
      (entries.map Prod.fst).Pairwise (· < ·) := by
  cases d with
  | null => exact .inl ⟨rfl, (Except.ok.inj h).symm⟩
  | object members =>
    rw [decodeMap] at h
    split at h
    · cases h
    · -- The guard on the tag has passed, so the object is no pseudo type.
      rename_i htag
      obtain ⟨entries, hentries, h⟩ := exists_of_bind_eq_ok h
      obtain ⟨decoded, hdecoded, hperm, hsorted⟩ := exists_of_decodeEntries .nil hentries
      exact .inr ⟨members, decoded, entries, rfl, by simpa using htag, (Except.ok.inj h).symm,
        hdecoded, hperm, hsorted⟩
  | _ => cases h

/-- The `array` of two items is read as the group, the key by `read` and the value by `second`. -/
def ReadsGroup (read second : Datum → Except Error Value) (d : Datum) (group : Value × Value) :
    Prop :=
  ∃ k w, d = .array [k, w] ∧ read k = .ok group.1 ∧ second w = .ok group.2

/-- Whatever `decodeGroup` gives, it was read from an array of two items. -/
theorem readsGroup_of_decodeGroup {group : Value × Value}
    (h : decodeGroup read second d = .ok group) : ReadsGroup read second d group := by
  unfold decodeGroup at h
  -- A group is an array of two.
  split at h
  · rename_i k w
    obtain ⟨key, hkey, h⟩ := exists_of_bind_eq_ok h
    obtain ⟨value, hvalue, h⟩ := exists_of_bind_eq_ok h
    obtain rfl := Except.ok.inj h
    exact ⟨k, w, rfl, hkey, hvalue⟩
  · cases h

/-- A grouping is read group by group from the `data` of its pseudo type, or it is `null`. -/
theorem exists_of_decodeGrouping {type : Ty} (h : decodeGrouping type read second d = .ok v) :
    (d = .null ∧ v = .null) ∨ ∃ pairs groups, d.tag? = some Datum.groupedTag ∧
      d.get? "data" = some (.array pairs) ∧ v = .grouping groups ∧
      List.Forall₂ (ReadsGroup read second) pairs groups := by
  unfold decodeGrouping at h
  split at h
  · rename_i hnull
    cases d with
    | null => exact .inl ⟨rfl, (Except.ok.inj h).symm⟩
    | _ => cases hnull
  · -- Past the test for null the tag has to be right, and the data an array.
    split at h
    · cases h
    · rename_i htag
      split at h
      · rename_i pairs hpairs
        obtain ⟨data, hdata, hitems⟩ := Option.bind_eq_some_iff.mp hpairs
        cases data with
        | array items =>
          obtain rfl := Option.some.inj hitems
          obtain ⟨groups, hgroups, h⟩ := exists_of_bind_eq_ok h
          exact .inr ⟨items, groups, not_not.mp htag, hdata, (Except.ok.inj h).symm,
            (forall₂_of_collect hgroups).imp fun _ _ => readsGroup_of_decodeGroup⟩
        | _ => cases hitems
      · cases h

/-- The keys and values of groups lie deeper than the document: three levels below it, which is why
    claims on reading go by `depth` and not by parts. -/
theorem depth_lt_of_readsGroup {pairs : List Datum} {pair k w : Datum}
    (hdata : d.get? "data" = some (.array pairs)) (hpair : pair ∈ pairs)
    (hparts : pair = .array [k, w]) : k.depth < d.depth ∧ w.depth < d.depth := by
  -- The pair lies in the array of groups, and that in the object.
  have hitem : pair.depth < d.depth :=
    (Datum.depth_lt_of_mem_parts (show pair ∈ (Datum.array pairs).parts from hpair)).trans
      (Datum.depth_lt_of_mem_parts (Datum.mem_parts_of_get? hdata))
  subst hparts
  have hk : k ∈ (Datum.array [k, w]).parts := .head _
  have hw : w ∈ (Datum.array [k, w]).parts := .tail _ (.head _)
  exact ⟨(Datum.depth_lt_of_mem_parts hk).trans hitem,
    (Datum.depth_lt_of_mem_parts hw).trans hitem⟩

variable {readers : List (Datum → Except Error Value)}

/-- A pair is read from two members of an `object`, whichever of `keys` they are found under. -/
theorem exists_of_decodePair {keys : List (String × String)}
    (h : decodePair read second d keys = .ok v) :
    ∃ a ∈ d.parts, ∃ b ∈ d.parts, ∃ first other, read a = .ok first ∧ second b = .ok other ∧
      v = .tuple [first, other] := by
  induction keys with
  -- Without a name to try the pair is refused.
  | nil => cases h
  | cons pair rest ih =>
    obtain ⟨k, l⟩ := pair
    rw [decodePair] at h
    split at h
    · rename_i a b ha hb
      obtain ⟨first, hfirst, h⟩ := exists_of_bind_eq_ok h
      obtain ⟨other, hother, h⟩ := exists_of_bind_eq_ok h
      exact ⟨a, Datum.mem_parts_of_get? ha, b, Datum.mem_parts_of_get? hb, first, other, hfirst,
        hother, (Except.ok.inj h).symm⟩
    · exact ih h
    · cases h

/-- Readers at their places read one item each, where there are as many readers as items. -/
theorem exists_of_collectZip {ds parts : List Datum} {items : List Value}
    (hlength : ds.length = readers.length) (hparts : ∀ p ∈ ds, p ∈ parts)
    (h : collectZip readers ds = .ok items) :
    List.Forall₂ (fun reader item => ∃ p ∈ parts, reader p = .ok item) readers items := by
  -- Induction on the readers. The items of an array are paired with them.
  induction readers generalizing ds items with
  | nil =>
    obtain rfl := List.length_eq_zero_iff.mp hlength
    obtain rfl := Except.ok.inj h
    exact .nil
  | cons reader readers ih =>
    cases ds with
    | nil => cases hlength
    | cons p ds =>
      obtain ⟨item, hitem, h⟩ := exists_of_bind_eq_ok h
      obtain ⟨rest, hrest, h⟩ := exists_of_bind_eq_ok h
      obtain rfl := Except.ok.inj h
      exact .cons ⟨p, hparts p (.head _), hitem⟩
        (ih (Nat.succ.inj hlength) (fun q hq => hparts q (.tail _ hq)) hrest)

/-- A tuple is read from as many parts as it has items, each by the reader at its place, be it from
    an `array` or, as a pair, from an `object`. -/
theorem exists_of_decodeTuple {type : Ty} (h : decodeTuple type readers d = .ok v) :
    ∃ items, v = .tuple items ∧
      List.Forall₂ (fun reader item => ∃ p ∈ d.parts, reader p = .ok item) readers items := by
  cases d with
  | array ds =>
    rw [decodeTuple] at h
    split at h
    · rename_i hlength
      obtain ⟨items, hitems, h⟩ := exists_of_bind_eq_ok h
      exact ⟨items, (Except.ok.inj h).symm,
        exists_of_collectZip hlength (fun _ hp => hp) hitems⟩
    · cases h
  | object members =>
    rcases readers with _ | ⟨first, _ | ⟨second, _ | _⟩⟩
    · cases h
    · -- Only two readers make a pair, and only a pair may be an object.
      cases h
    · obtain ⟨a, ha, b, hb, left, right, hleft, hright, rfl⟩ := exists_of_decodePair h
      exact ⟨[left, right], rfl, .cons ⟨a, ha, hleft⟩ (.cons ⟨b, hb, hright⟩ .nil)⟩
    · cases h
  | null => cases h
  | _ => cases h

/-- After a place is `set`, the values at the places are still of those places. -/
theorem forall₂_set {α β : Type} {holds : α → β → Prop} {slots : List α} {values : List β}
    (h : List.Forall₂ holds slots values) (index : Nat) {value : β}
    (hvalue : ∀ slot, slots[index]? = some slot → holds slot value) :
    List.Forall₂ holds slots (values.set index value) := by
  induction h generalizing index with
  | nil => exact .nil
  | cons hhead htail ih =>
    cases index with
    | zero => exact .cons (hvalue _ rfl) htail
    | succ index => exact .cons hhead (ih index hvalue)

/-- Reading members by `decodeFields` keeps what `holds` of the defaults and of all that the readers
    read. -/
theorem forall₂_of_decodeFields {α : Type} {holds : α → Value → Prop} {slots : List α}
    {type : RecordType} {record record' : RecordValue} {members : List (String × Datum)}
    (hread : ∀ (index : Nat) slot, slots[index]? = some slot → ∀ reader ∈ readers[index]?,
      ∀ m ∈ members, ∀ value, reader m.2 = .ok value → holds slot value)
    (hrecord : List.Forall₂ holds slots record.fields)
    (h : decodeFields type readers record members = .ok record') :
    record'.type = record.type ∧ List.Forall₂ holds slots record'.fields := by
  induction members generalizing record with
  | nil =>
    obtain rfl := Except.ok.inj h
    exact ⟨rfl, hrecord⟩
  | cons m rest ih =>
    have hrest : ∀ (index : Nat) slot, slots[index]? = some slot → ∀ reader ∈ readers[index]?,
        ∀ m ∈ rest, ∀ value, reader m.2 = .ok value → holds slot value :=
      fun index slot hslot reader hreader m hm =>
        hread index slot hslot reader hreader m (.tail _ hm)
    rw [decodeFields] at h
    split at h
    · -- A member without a field or without a reader leaves the record as it is.
      exact ih hrest hrecord h
    · rename_i index field _
      split at h
      · exact ih hrest hrecord h
      · rename_i reader hreader
        -- A member that is read replaces the value at its place, which `holds` there by `hread`.
        obtain ⟨value, hvalue, h⟩ := exists_of_bind_eq_ok h
        have hset : List.Forall₂ holds slots (record.setIndex index value).fields :=
          forall₂_set hrecord index fun slot hslot =>
            hread index slot hslot reader hreader m (.head _) value hvalue
        obtain ⟨htype, hfields⟩ := ih hrest hset h
        exact ⟨htype, hfields⟩

/-- A record is read from an `object` that is no pseudo type, or it is `null`. What `holds` of the
    defaults and of all that readers read holds of its fields. -/
theorem exists_of_decodeRecord {α : Type} {holds : α → Value → Prop} {slots : List α}
    {type : RecordType}
    (hread : ∀ (index : Nat) slot, slots[index]? = some slot → ∀ reader ∈ readers[index]?,
      ∀ p ∈ d.parts, ∀ value, reader p = .ok value → holds slot value)
    (hdefaults : List.Forall₂ holds slots (type.fields.map Field.default))
    (h : decodeRecord type readers d = .ok v) :
    (d = .null ∧ v = .null) ∨
      ∃ values, v = .record type values ∧ List.Forall₂ holds slots values := by
  cases d with
  | null => exact .inl ⟨rfl, (Except.ok.inj h).symm⟩
  | object members =>
    rw [decodeRecord] at h
    split at h
    · cases h
    · obtain ⟨record, hrecord, h⟩ := exists_of_bind_eq_ok h
      -- The fields keep the property from the defaults on, member by member.
      obtain ⟨htype, hfields⟩ := forall₂_of_decodeFields
        (fun index slot hslot reader hreader m hm => hread index slot hslot reader hreader m.2
          (List.mem_map_of_mem hm)) hdefaults hrecord
      -- The record read has the type whose defaults it began with.
      refine .inr ⟨record.fields, ?_, hfields⟩
      rw [← Except.ok.inj h, RecordValue.toValue, htype]
      rfl
  | _ => cases h

/-! ## Induction along reading -/

/-- How many converters in a row pass a document on to the next one: those of an `option` and of
    `dynamic`. -/
def passes : Ty → Nat
  | .option inner => passes inner + 1
  | .dynamic => 1
  | _ => 0

/-- A property of reading documents as types holds in general where it holds, at a type that does
    not pass the document on, from everything deeper (`guarded`), at an option from the inner type
    (`option`), and at the dynamic type from all types that do not pass the document on
    (`dynamic`). -/
theorem reading_induction {motive : Ty → Datum → Prop}
    (guarded : ∀ t d, t ≠ .dynamic → (∀ inner, t ≠ .option inner) →
      (∀ s (p : Datum), p.depth < d.depth → motive s p) → motive t d)
    (option : ∀ inner d, motive inner d → motive (.option inner) d)
    (dynamic : ∀ d, (∀ t, t ≠ .dynamic → (∀ inner, t ≠ .option inner) → motive t d) →
      motive .dynamic d)
    (t : Ty) (d : Datum) : motive t d := by
  induction hdepth : d.depth using Nat.strong_induction_on generalizing t d with
  | _ depth ih =>
    subst hdepth
    have hguarded : ∀ t, t ≠ .dynamic → (∀ inner, t ≠ .option inner) → motive t d :=
      fun t hdynamic hoption => guarded t d hdynamic hoption fun s p hp => ih p.depth hp s p rfl
    -- At one document only options and the dynamic type come before such a type.
    induction hpasses : passes t generalizing t with
    | zero =>
      refine hguarded t ?_ ?_
      · rintro rfl
        cases hpasses
      · rintro inner rfl
        cases hpasses
    -- An option takes one pass off, and dynamic reading goes on by a type that takes none.
    | succ n ih =>
      cases t with
      | option inner => exact option inner d (ih inner (Nat.succ.inj hpasses))
      | dynamic => exact dynamic d hguarded
      | _ => cases hpasses

end Converter

end DocQuery
