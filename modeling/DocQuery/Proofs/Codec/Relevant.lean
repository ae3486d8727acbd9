import DocQuery.Proofs.Codec.Fields
import DocQuery.Proofs.Codec.Undeclared

/-!
# What a record looks at in an object

Of an object, a record looks at the reserved key and at the members under the document names of its
fields. Each of these members is read by itself and goes to a place of its own, so that neither
their order nor any other member matters to what the object is read as.

## Key results

- `Converter.decodeFields_relevant`: the other members are passed over
- `Converter.decodeFields_of_perm`: members with distinct keys may come in any order
- `Engine.decode_record_of_relevant_perm`: objects with the same relevant members are read alike
-/

namespace DocQuery

open Sequence (exists_of_bind_eq_ok)

/-! ## Relevant members -/

namespace Members

variable {κ α : Type} [DecidableEq κ]

/-- Leaving members of other names out by `filter` does not change what `get?` finds under a
    name. -/
theorem get?_filter {keep : κ × α → Bool} {name : κ} {members : List (κ × α)}
    (h : ∀ value, keep (name, value) = true) :
    get? name (members.filter keep) = get? name members := by
  induction members with
  | nil => rfl
  | cons m rest ih =>
    obtain ⟨k, v⟩ := m
    by_cases hk : k = name
    · rw [List.filter_cons_of_pos (hk ▸ h v), get?, get?, if_pos hk, if_pos hk]
    · -- A member under another name is no answer, whether it is kept or left out.
      rw [get?, if_neg hk, ← ih]
      by_cases hkeep : keep (k, v) = true
      · rw [List.filter_cons_of_pos hkeep, get?, if_neg hk]
      · rw [List.filter_cons_of_neg hkeep]

end Members

namespace RecordType

/-- The keys that a record looks at: `Datum.tagKey` and the document names of its fields. -/
def keys (r : RecordType) : List String := Datum.tagKey :: r.fields.map Field.wireName

/-- The members of an object that a record looks at, by its `keys`. -/
def relevant (r : RecordType) (members : List (String × Datum)) : List (String × Datum) :=
  members.filter fun m => m.1 ∈ r.keys

variable {r : RecordType} {members : List (String × Datum)}

theorem relevant_cons_of_mem {m : String × Datum} (h : m.1 ∈ r.keys) :
    r.relevant (m :: members) = m :: r.relevant members :=
  List.filter_cons_of_pos (decide_eq_true h)

theorem relevant_cons_of_notMem {m : String × Datum} (h : m.1 ∉ r.keys) :
    r.relevant (m :: members) = r.relevant members :=
  List.filter_cons_of_neg (by simpa using h)

/-- The `relevant` members are in the order of the object. -/
theorem relevant_sublist : (r.relevant members).Sublist members := List.filter_sublist

/-- A key that is not looked at belongs to no field, as `fieldByWireName?` finds fields by names in
    `keys`. -/
theorem fieldByWireName?_eq_none {key : String} (h : key ∉ r.keys) :
    r.fieldByWireName? key = none := by
  cases hplace : r.fieldByWireName? key with
  | none => rfl
  | some place =>
    obtain ⟨hfield, rfl⟩ := getElem?_of_fieldByWireName? hplace
    exact absurd (.tail _ (List.mem_map_of_mem (List.mem_of_getElem? hfield))) h

/-- The tag of an object is among its `relevant` members. -/
theorem tag?_relevant : (Datum.object (r.relevant members)).tag? = (Datum.object members).tag? := by
  have hkeep : ∀ value : Datum, decide ((Datum.tagKey, value).1 ∈ r.keys) = true :=
    fun _ => decide_eq_true (.head _)
  rw [Datum.tag?, Datum.tag?, Datum.get?, Datum.get?, relevant, Members.get?_filter hkeep]

end RecordType

namespace Converter

/-! ## Reading members one by one -/

section Fields

variable {type : RecordType} {readers : List (Datum → Except Error Value)} {record : RecordValue}
  {members members' : List (String × Datum)} {v : RecordValue}

/-- The place that a member under `key` goes to, and what reads it, if the record has both. -/
def target? (type : RecordType) (readers : List (Datum → Except Error Value)) (key : String) :
    Option (Nat × (Datum → Except Error Value)) :=
  (type.fieldByWireName? key).bind fun place => readers[place.1]?.map fun reader =>
    (place.1, reader)

/-- Members under different keys go to different places, since the field at a place has one document
    name. -/
theorem target?_ne {key key' : String} (hne : key ≠ key') {index index' : Nat}
    {reader reader' : Datum → Except Error Value}
    (h : target? type readers key = some (index, reader))
    (h' : target? type readers key' = some (index', reader')) : index ≠ index' := by
  obtain ⟨⟨place, field⟩, hplace, h⟩ := Option.bind_eq_some_iff.mp h
  obtain ⟨⟨place', field'⟩, hplace', h'⟩ := Option.bind_eq_some_iff.mp h'
  obtain ⟨_, -, h⟩ := Option.map_eq_some_iff.mp h
  obtain ⟨_, -, h'⟩ := Option.map_eq_some_iff.mp h'
  obtain ⟨rfl, -⟩ := Prod.mk.inj h
  obtain ⟨rfl, -⟩ := Prod.mk.inj h'
  -- The field that is found at a place is the one whose document name is the key.
  obtain ⟨hfield, rfl⟩ := RecordType.getElem?_of_fieldByWireName? hplace
  obtain ⟨hfield', rfl⟩ := RecordType.getElem?_of_fieldByWireName? hplace'
  rintro rfl
  exact hne (congrArg Field.wireName (Option.some.inj (hfield.symm.trans hfield')))

/-- A member with no `target?` is passed over. -/
theorem decodeFields_cons_of_none {m : String × Datum} (h : target? type readers m.1 = none) :
    decodeFields type readers record (m :: members) =
      decodeFields type readers record members := by
  rw [decodeFields]
  cases hplace : type.fieldByWireName? m.1 with
  | none => rfl
  | some place =>
    have hreader : readers[place.1]? = none := by simpa [target?, hplace] using h
    simp only [hreader]

/-- A member with a `target?` is read and set there. -/
theorem decodeFields_cons_of_some {m : String × Datum} {index : Nat}
    {reader : Datum → Except Error Value} (h : target? type readers m.1 = some (index, reader)) :
    decodeFields type readers record (m :: members) = (do
      let value ← reader m.2
      decodeFields type readers (record.setIndex index value) members) := by
  obtain ⟨place, hplace, h⟩ := Option.bind_eq_some_iff.mp h
  obtain ⟨found, hfound, h⟩ := Option.map_eq_some_iff.mp h
  obtain ⟨rfl, rfl⟩ := Prod.mk.inj h
  rw [decodeFields, hplace]
  simp only [hfound]

/-- Only `relevant` members are read. -/
theorem decodeFields_relevant :
    decodeFields type readers record (type.relevant members) =
      decodeFields type readers record members := by
  induction members generalizing record with
  | nil => rfl
  | cons m rest ih =>
    by_cases hkey : m.1 ∈ type.keys
    · -- A relevant member need not have a place: the reserved key has none, and converters may be
      -- missing.
      rw [RecordType.relevant_cons_of_mem hkey]
      cases htarget : target? type readers m.1 with
      | none => rw [decodeFields_cons_of_none htarget, decodeFields_cons_of_none htarget, ih]
      | some target =>
        rw [decodeFields_cons_of_some htarget, decodeFields_cons_of_some htarget]
        exact bind_congr fun value => ih
    · have htarget : target? type readers m.1 = none := by
        rw [target?, RecordType.fieldByWireName?_eq_none hkey, Option.bind_none]
      rw [RecordType.relevant_cons_of_notMem hkey, decodeFields_cons_of_none htarget, ih]

/-- Two members under different keys may change places: they are read by themselves and set at
    different places. -/
theorem decodeFields_swap {m m' : String × Datum} (hne : m.1 ≠ m'.1)
    (h : decodeFields type readers record (m :: m' :: members) = .ok v) :
    decodeFields type readers record (m' :: m :: members) = .ok v := by
  -- One case for each of the two names: it stands for a field or it does not.
  cases htarget : target? type readers m.1 with
  | none =>
    -- The first member is passed over wherever it stands.
    rw [decodeFields_cons_of_none htarget] at h
    cases htarget' : target? type readers m'.1 with
    | none =>
      rw [decodeFields_cons_of_none htarget'] at h
      rw [decodeFields_cons_of_none htarget', decodeFields_cons_of_none htarget, h]
    | some target' =>
      rw [decodeFields_cons_of_some htarget'] at h
      simpa only [decodeFields_cons_of_some htarget', decodeFields_cons_of_none htarget] using h
  -- The first member has a field. Its value does not depend on the record so far.
  | some target =>
    rw [decodeFields_cons_of_some htarget] at h
    obtain ⟨value, hvalue, h⟩ := exists_of_bind_eq_ok h
    cases htarget' : target? type readers m'.1 with
    | none =>
      rw [decodeFields_cons_of_none htarget'] at h
      rw [decodeFields_cons_of_none htarget', decodeFields_cons_of_some htarget, hvalue]
      exact h
    | some target' =>
      rw [decodeFields_cons_of_some htarget'] at h
      obtain ⟨value', hvalue', h⟩ := exists_of_bind_eq_ok h
      -- The two values are set at different places.
      have hset : (record.setIndex target'.1 value').setIndex target.1 value =
          (record.setIndex target.1 value).setIndex target'.1 value' :=
        congrArg (RecordValue.mk record.type)
          (List.set_comm _ _ (target?_ne hne.symm htarget' htarget))
      rw [decodeFields_cons_of_some htarget', hvalue']
      show decodeFields type readers (record.setIndex _ value') (m :: members) = _
      rw [decodeFields_cons_of_some htarget, hvalue]
      show decodeFields type readers _ members = _
      rw [hset]
      exact h

/-- Members with distinct keys are read alike in any order. The induction is on the permutation, and
    `decodeFields_swap` does the one step that is not mere bookkeeping. -/
theorem decodeFields_of_perm (hperm : members.Perm members')
    (hnodup : (members.map Prod.fst).Nodup)
    (h : decodeFields type readers record members = .ok v) :
    decodeFields type readers record members' = .ok v := by
  induction hperm generalizing record with
  | nil => exact h
  | cons m _ ih =>
    rw [List.map_cons, List.nodup_cons] at hnodup
    cases htarget : target? type readers m.1 with
    | none =>
      rw [decodeFields_cons_of_none htarget] at h ⊢
      exact ih hnodup.2 h
    | some target =>
      rw [decodeFields_cons_of_some htarget] at h ⊢
      obtain ⟨value, hvalue, h⟩ := exists_of_bind_eq_ok h
      rw [hvalue]
      exact ih hnodup.2 h
  | swap m m' rest =>
    rw [List.map_cons, List.map_cons, List.nodup_cons] at hnodup
    exact decodeFields_swap (fun hkey => hnodup.1 (hkey ▸ .head _)) h
  -- Distinct keys stay distinct in the order in between.
  | trans hfirst _ ih ih' =>
    exact ih' ((hfirst.map Prod.fst).nodup_iff.mp hnodup) (ih hnodup h)

end Fields

/-! ## Reading records -/

section Records

variable {type : RecordType} {members members' : List (String × Datum)} {v : Value}

/-- A record is read from the `relevant` members. -/
theorem decodeRecord_relevant {readers : List (Datum → Except Error Value)} :
    decodeRecord type readers (.object (type.relevant members)) =
      decodeRecord type readers (.object members) := by
  have htag : (Datum.object (type.relevant members)).tag? = (Datum.object members).tag? :=
    RecordType.tag?_relevant
  have hkind : (Datum.object (type.relevant members)).kind = (Datum.object members).kind := by
    simp only [Datum.kind, htag]
  rw [decodeRecord, decodeRecord, htag, hkind, decodeFields_relevant]

/-- Members with distinct keys may come in any order for `decodeRecord`, which sees the tag wherever
    it stands. -/
theorem decodeRecord_of_perm {readers : List (Datum → Except Error Value)}
    (hperm : members.Perm members') (hnodup : (members.map Prod.fst).Nodup)
    (h : decodeRecord type readers (.object members) = .ok v) :
    decodeRecord type readers (.object members') = .ok v := by
  -- The tag is that of a member, and with distinct keys the order does not matter to it.
  have htag : (Datum.object members).tag? = (Datum.object members').tag? := by
    rw [Datum.tag?, Datum.tag?, Datum.get?, Datum.get?, Members.get?_of_perm hperm hnodup]
  rw [decodeRecord] at h ⊢
  rw [htag] at h
  split_ifs at h ⊢
  obtain ⟨record, hrecord, h⟩ := exists_of_bind_eq_ok h
  rw [decodeFields_of_perm hperm hnodup hrecord]
  exact h

/-- By any converters of its `fields`, a record is read alike from objects with the same `relevant`
    members in any order. -/
theorem decode_of_relevant_perm {resolve : Ty → Except Error Converter}
    {fields : List Converter} (hnodup : (members.map Prod.fst).Nodup)
    (hperm : (type.relevant members).Perm (type.relevant members'))
    (h : (record type fields).decode resolve (.object members) = .ok v) :
    (record type fields).decode resolve (.object members') = .ok v := by
  rw [decode, decodeWith, decodersWith_eq_map, ← decodeRecord_relevant] at h ⊢
  have hnodup : ((type.relevant members).map Prod.fst).Nodup :=
    (RecordType.relevant_sublist.map Prod.fst).nodup hnodup
  refine decodeRecord_of_perm hperm hnodup ?_
  -- The objects may differ in depth, and with it in the bound on dynamic steps.
  refine decodeRecord_related (R := .passing) type (fun c _ p hp => ?_) v h
  have hpart : p ∈ (Datum.object members').parts :=
    (RecordType.relevant_sublist.map Prod.snd).subset ((hperm.map Prod.snd).subset hp)
  refine decodeWith_related_below (R := .passing) (fun q hq a ha => ?_) c
    (Nat.lt_succ_of_lt (Datum.depth_lt_of_mem_parts hpart))
  exact decodeDynamic_of_depth_lt ha hq

end Records

end Converter

/-! ## Engines -/

namespace Engine

variable {engine : Engine} {cache later : ConverterCache}

/-- After any requests an engine knows the types in which nothing is declared: `KnowsUndeclared` is
    kept by every one of them. -/
theorem Reaches.knowsUndeclared (hchain : ∀ factory ∈ engine.chain, factory.NeedsComponents)
    (h : engine.Reaches .empty cache) : cache.KnowsUndeclared engine.chain :=
  h.keeps (Factory.resolve_keeps hchain) ConverterCache.knowsUndeclared_empty

/-- After any requests a converter reads dynamic data by what `Factory.build` gives of the bare
    chain. -/
theorem Reaches.run_decode (hchain : ∀ factory ∈ engine.chain, factory.NeedsComponents)
    (h : engine.Reaches .empty cache) (c : Converter) (d : Datum) :
    ((c.decode engine.resolve d).run cache).1 = c.decode (Factory.build engine.chain) d := by
  obtain ⟨after, hrun, -⟩ := c.decode_follows
    (fun _ hs => resolve_follows ConverterCache.knows_undeclared hchain hs) d cache
    (h.knowsUndeclared hchain)
  rw [hrun]

/-- What a record is read as depends only on its `relevant` members, those under its document names
    and the reserved key, and not on their order. Where the converter of a record, with any
    converters of the `fields`, reads an object with distinct keys, it reads the same from every
    object that has the same such members in any order, and any members under other keys. This holds
    whatever the engine was asked for before either reading. -/
theorem decode_record_of_relevant_perm
    (hchain : ∀ factory ∈ engine.chain, factory.NeedsComponents)
    (hcache : engine.Reaches .empty cache) (hlater : engine.Reaches .empty later)
    {type : RecordType} {fields : List Converter} {members members' : List (String × Datum)}
    (hnodup : (members.map Prod.fst).Nodup)
    (hperm : (type.relevant members).Perm (type.relevant members')) {v : Value}
    (h : (((Converter.record type fields).decode engine.resolve (.object members)).run cache).1 =
      .ok v) :
    (((Converter.record type fields).decode engine.resolve (.object members')).run later).1 =
      .ok v := by
  -- Both sessions come down to the bare chain, where no cache is left to tell them apart.
  rw [hcache.run_decode hchain] at h
  rw [hlater.run_decode hchain]
  exact Converter.decode_of_relevant_perm hnodup hperm h

/-- A reminder that may be hidden, with the document names `t` and `s`. -/
def reminderType : RecordType := ⟨"Reminder", .declared,
  [⟨"text", "t", .string, true, .string ""⟩, ⟨"shown", "s", .bool, true, .bool true⟩]⟩

/-- The cache after a request for a list of reminders. -/
def remindersCache : ConverterCache :=
  (ofSettings {}).serve .empty (.resolve (.list (.record reminderType)))

/-- A hidden reminder is read alike from an object in which its text comes last and a member `r`
    comes first that no reminder has. -/
theorem decode_record_of_relevant_perm_reminder :
    ((∀ factory ∈ (ofSettings {}).chain, factory.NeedsComponents) ∧
      (ofSettings {}).Reaches .empty .empty ∧ (ofSettings {}).Reaches .empty remindersCache ∧
      (["t", "s"] : List String).Nodup ∧
      (reminderType.relevant [("t", .string "tea"), ("s", .bool false)]).Perm
        (reminderType.relevant [("r", .null), ("s", .bool false), ("t", .string "tea")]) ∧
      (((Converter.record reminderType [.leaf .string, .leaf .bool]).decode (ofSettings {}).resolve
        (.object [("t", .string "tea"), ("s", .bool false)])).run .empty).1 =
          .ok (.record reminderType [.string "tea", .bool false])) ∧
    (((Converter.record reminderType [.leaf .string, .leaf .bool]).decode (ofSettings {}).resolve
      (.object [("r", .null), ("s", .bool false), ("t", .string "tea")])).run remindersCache).1 =
        .ok (.record reminderType [.string "tea", .bool false]) := by
  have hchain := Factory.defaults_needsComponents {}
  have hlater : (ofSettings {}).Reaches .empty remindersCache := .single ⟨_, rfl⟩
  -- The two relevant members change places, and the unknown one is dropped.
  have hperm : (reminderType.relevant [("t", .string "tea"), ("s", .bool false)]).Perm
      (reminderType.relevant [("r", .null), ("s", .bool false), ("t", .string "tea")]) :=
    .swap _ _ _
  have hdecode : (((Converter.record reminderType [.leaf .string, .leaf .bool]).decode
      (ofSettings {}).resolve (.object [("t", .string "tea"), ("s", .bool false)])).run .empty).1 =
        .ok (.record reminderType [.string "tea", .bool false]) := by
    rw [Reaches.run_decode hchain .refl]
    rfl
  exact ⟨⟨hchain, .refl, hlater, by decide, hperm, hdecode⟩,
    decode_record_of_relevant_perm hchain .refl hlater (by decide) hperm hdecode⟩

end Engine

end DocQuery
