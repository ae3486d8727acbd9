import DocQuery.Proofs.Codec.Entries
import DocQuery.Proofs.Codec.Fields
import DocQuery.Proofs.Codec.Leaf

/-!
# Containers that give back what their parts give back

A writer and a reader go together when the reader gives back an equal value from what the writer
wrote, and the writer writes null for null only. Containers of converters that go together do so
too, fields that were left out included: these come back as the defaults that they held.

## Key results

- `Converter.RoundTrips.list`, `map`, `grouping`, `tuple`, `record`: one lemma for each container
-/

namespace DocQuery

/-- A value over the naming that is intact, by `IntactNode`, at every depth. -/
abbrev Value.Sound (names : Naming) : Value → Prop :=
  Everywhere Value.parts fun v => names.Carries v ∧ v.IntactNode

namespace Converter

open Sequence (collect collectZip exists_of_bind_eq_ok exists_collect related_of_getElem?)

variable {names : Naming}

/-- Of every sound value, `read` gives back an equal value from what `write` wrote, and `write`
    writes null for null only. Options rely on the second half: they would read such a null as
    absence. -/
def RoundTrips (names : Naming) (write : Value → Except Error Datum)
    (read : Datum → Except Error Value) : Prop :=
  ∀ v, v.Sound names → ∀ d, write v = .ok d →
    (d.isNull = true → v = .null) ∧ ∃ v', read d = .ok v' ∧ v'.same v = true

variable {write write' : Value → Except Error Datum} {read read' : Datum → Except Error Value}

/-- Writers and readers go together, by `RoundTrips`, as others do that compute the same. -/
theorem RoundTrips.congr (h : RoundTrips names write read) (hwrite : ∀ v, write' v = write v)
    (hread : ∀ d, read' d = read d) : RoundTrips names write' read' := by
  have hwriters : write' = write := funext hwrite
  have hreaders : read' = read := funext hread
  rwa [hwriters, hreaders]

/-- A reader that keeps `null` gives back what was written for it. -/
theorem exists_read_null (h : read .null = .ok .null) :
    (Datum.null.isNull = true → Value.null = .null) ∧
      ∃ v', read .null = .ok v' ∧ v'.same .null = true :=
  ⟨fun _ => rfl, .null, h, by simp [Value.same]⟩

/-! ## Options, lists and groups -/

/-- Options give back what is inside of them gives back; `null` is absence on both sides. -/
theorem RoundTrips.nullable (h : RoundTrips names write read) :
    RoundTrips names (fun v => if v.isNull then pure .null else write v)
      (fun d => if d.isNull then pure .null else read d) := by
  intro v hv d hwrite
  dsimp only at hwrite ⊢
  split_ifs at hwrite with hnull
  · -- A null value is written as null, and read back as such.
    obtain rfl := Except.ok.inj hwrite
    cases v with
    | null => exact ⟨fun _ => rfl, .null, rfl, by simp [Value.same]⟩
    | _ => cases hnull
  · -- The part writes null for null only, and this value is another one.
    obtain ⟨hd, v', hread, hsame⟩ := h v hv d hwrite
    refine ⟨hd, v', ?_, hsame⟩
    rw [if_neg fun hdnull => hnull (by rw [hd hdnull]; rfl), hread]

/-- Lists give back what their elements give back: `collect` goes through both directions item by
    item. -/
theorem RoundTrips.list (h : RoundTrips names write read) (type : Ty) :
    RoundTrips names (encodeList type write) (decodeList read) := by
  intro v hv d hwrite
  -- Null is read as null, and an array item by item.
  cases v with
  | null =>
    obtain rfl := Except.ok.inj hwrite
    exact exists_read_null rfl
  | list items =>
    obtain ⟨ds, hds, hwrite⟩ := exists_of_bind_eq_ok hwrite
    obtain rfl := Except.ok.inj hwrite
    obtain ⟨items', hread, hsame⟩ := exists_collect
      (fun item hitem d hd => (h item (hv.at_part hitem) d hd).2) hds
    -- A list is no null, so the first part is void.
    refine ⟨fun h => absurd h Bool.false_ne_true, .list items', ?_, ?_⟩
    · rw [decodeList, hread]
      rfl
    · rw [Value.same]
      exact sameItems_of_forall₂ hsame
  | _ => cases hwrite

/-- Groups that are the same one by one are the same by `sameGroups`. -/
theorem sameGroups_of_forall₂ {groups' groups : List (Value × Value)}
    (h : List.Forall₂ (fun g' g => g'.1.same g.1 = true ∧ g'.2.same g.2 = true) groups' groups) :
    Value.sameGroups groups' groups = true := by
  induction h with
  | nil => rw [Value.sameGroups]
  | @cons g' g _ _ hgroup hgroups ih =>
    obtain ⟨k', v'⟩ := g'
    obtain ⟨k, v⟩ := g
    simp only [Value.sameGroups, hgroup.1, hgroup.2, ih, Bool.and_self]

/-- A group gives back what its two parts give back, the key under `read` and the value under
    `read'`. -/
theorem exists_decodeGroup (hkey : RoundTrips names write read)
    (hvalue : RoundTrips names write' read') {group : Value × Value}
    (hk : group.1.Sound names) (hv : group.2.Sound names) {d : Datum}
    (hwrite : encodeGroup write write' group = .ok d) :
    ∃ group', decodeGroup read read' d = .ok group' ∧ group'.1.same group.1 = true ∧
      group'.2.same group.2 = true := by
  -- Key and value are written, the key first.
  obtain ⟨k, hk', hwrite⟩ := exists_of_bind_eq_ok hwrite
  obtain ⟨v, hv', hwrite⟩ := exists_of_bind_eq_ok hwrite
  obtain rfl := Except.ok.inj hwrite
  -- Both are read back.
  obtain ⟨-, key, hreadkey, hsamekey⟩ := hkey _ hk k hk'
  obtain ⟨-, value, hreadvalue, hsamevalue⟩ := hvalue _ hv v hv'
  refine ⟨(key, value), ?_, hsamekey, hsamevalue⟩
  rw [decodeGroup, hreadkey, hreadvalue]
  rfl

/-- Groupings give back what their keys and their values give back, from an object with the tag of
    the pseudo type. -/
theorem RoundTrips.grouping (hkey : RoundTrips names write read)
    (hvalue : RoundTrips names write' read') (type : Ty) :
    RoundTrips names (encodeGrouping type write write') (decodeGrouping type read read') := by
  intro v hv d hwrite
  cases v with
  | null =>
    obtain rfl := Except.ok.inj hwrite
    exact exists_read_null rfl
  | grouping groups =>
    obtain ⟨ds, hds, hwrite⟩ := exists_of_bind_eq_ok hwrite
    obtain rfl := Except.ok.inj hwrite
    have hparts : ∀ group ∈ groups, ∀ part ∈ [group.1, group.2], part.Sound names :=
      fun group hgroup part hpart => hv.at_part (List.mem_flatMap.mpr ⟨group, hgroup, hpart⟩)
    -- The parts of a grouping alternate keys and values, so each group contributes two of them.
    obtain ⟨groups', hread, hsame⟩ := exists_collect (fun group hgroup d hd =>
      exists_decodeGroup hkey hvalue (hparts group hgroup _ (.head _))
        (hparts group hgroup _ (.tail _ (.head _))) hd) hds
    refine ⟨fun h => absurd h Bool.false_ne_true, .grouping groups', ?_,
      by rw [Value.same, sameGroups_of_forall₂ hsame]⟩
    -- The object is read as a pseudo type by its tag, and the groups are in its data.
    have htag : (Datum.object
        [(Datum.tagKey, .string Datum.groupedTag), ("data", .array ds)]).tag? =
        some Datum.groupedTag := by
      simp [Datum.tag?, Datum.get?, Members.get?, Datum.asString?]
    have hdata : ((Datum.object [(Datum.tagKey, .string Datum.groupedTag),
        ("data", .array ds)]).get? "data").bind Datum.asArray? = some ds := by
      simp [Datum.get?, Members.get?, Datum.asArray?, Datum.tagKey]
    have hread : collect (decodeGroup read read') ds = .ok groups' := hread
    rw [decodeGrouping, if_neg (by simp [Datum.isNull]), if_neg (by simp [htag]), hdata]
    dsimp only
    rw [hread]
    rfl
  | _ => cases hwrite

/-! ## Maps -/

/-- The entries of a map are written under their keys, in the same order. -/
theorem keys_encodeEntries {entries : List (String × Value)} {members : List (String × Datum)}
    (h : collect (encodeEntry write) entries = .ok members) :
    members.map Prod.fst = entries.map Prod.fst := by
  induction entries generalizing members with
  | nil =>
    obtain rfl := Except.ok.inj h
    rfl
  | cons entry rest ih =>
    obtain ⟨member, hmember, h⟩ := exists_of_bind_eq_ok h
    obtain ⟨members, hmembers, h⟩ := exists_of_bind_eq_ok h
    obtain rfl := Except.ok.inj h
    -- An entry is written as the member with its own key, if its value is written at all.
    obtain ⟨d, -, hmember⟩ := exists_of_bind_eq_ok hmember
    obtain rfl := Except.ok.inj hmember
    rw [List.map_cons, List.map_cons, ih hmembers]

/-- Written entries are read back one by one by `ReadsEntry`, under the same keys and as the same
    values. -/
theorem exists_readsEntry (h : RoundTrips names write read) {entries : List (String × Value)}
    {members : List (String × Datum)} (hentries : ∀ entry ∈ entries, entry.2.Sound names)
    (hwrite : collect (encodeEntry write) entries = .ok members) :
    ∃ entries', List.Forall₂ (ReadsEntry read) members entries' ∧
      entries'.map Prod.fst = entries.map Prod.fst ∧ Value.sameEntries entries' entries = true := by
  -- Induction on the entries. The member written for the front one is read under its key.
  induction entries generalizing members with
  | nil =>
    obtain rfl := Except.ok.inj hwrite
    exact ⟨[], .nil, rfl, by rw [Value.sameEntries]⟩
  | cons entry rest ih =>
    obtain ⟨key, value⟩ := entry
    obtain ⟨member, hmember, hwrite⟩ := exists_of_bind_eq_ok hwrite
    obtain ⟨members, hmembers, hwrite⟩ := exists_of_bind_eq_ok hwrite
    obtain rfl := Except.ok.inj hwrite
    obtain ⟨d, hd, hmember⟩ := exists_of_bind_eq_ok hmember
    obtain rfl := Except.ok.inj hmember
    obtain ⟨-, value', hread, hsame⟩ := h value (hentries _ (.head _)) d hd
    obtain ⟨entries', hreads, hkeys, hsames⟩ :=
      ih (fun entry hentry => hentries entry (.tail _ hentry)) hmembers
    exact ⟨(key, value') :: entries', .cons ⟨rfl, hread⟩ hreads, congrArg (key :: ·) hkeys,
      by simp [Value.sameEntries, hsame, hsames]⟩

/-- Maps give back what their values give back. The entries of a sound map are in the order of their
    keys, which is the order that `decodeMap` puts them in. -/
theorem RoundTrips.map (h : RoundTrips names write read) (type : Ty) :
    RoundTrips names (encodeMap type write) (decodeMap read) := by
  intro v hv d hwrite
  cases v with
  | null =>
    obtain rfl := Except.ok.inj hwrite
    exact exists_read_null rfl
  | map entries =>
    obtain ⟨members, hmembers, hwrite⟩ := exists_of_bind_eq_ok hwrite
    obtain rfl := Except.ok.inj hwrite
    obtain ⟨-, hsorted, hreserved⟩ := hv.at_top
    obtain ⟨entries', hreads, hkeys, hsame⟩ := exists_readsEntry h
      (fun entry hentry => hv.at_part (List.mem_map_of_mem hentry)) hmembers
    refine ⟨fun h => absurd h Bool.false_ne_true, .map entries', ?_, by rw [Value.same, hsame]⟩
    rw [← hkeys] at hsorted
    -- None of the keys is the reserved one, so the object is not taken for a pseudo type.
    rw [← keys_encodeEntries hmembers] at hreserved
    -- Nothing was read before the first entry.
    rw [decodeMap, tag?_object_eq_none hreserved, if_neg (by decide),
      decodeEntries_of_forall₂ hreads hsorted fun _ hk => absurd hk List.not_mem_nil]
    rfl
  | _ => cases hwrite

/-! ## Tuples -/

/-- Each writer goes together with the reader at its place, by `RoundTrips`. -/
abbrev PartsRoundTrip (names : Naming) :
    List (Value → Except Error Datum) → List (Datum → Except Error Value) → Prop :=
  List.Forall₂ (RoundTrips names)

variable {writers : List (Value → Except Error Datum)} {readers : List (Datum → Except Error Value)}

/-- Items are read back one by one by `collectZip`, and there are as many documents as readers. -/
theorem exists_collectZip (h : PartsRoundTrip names writers readers) {items : List Value}
    {ds : List Datum} (hitems : ∀ item ∈ items, item.Sound names)
    (hlength : items.length = writers.length) (hwrite : collectZip writers items = .ok ds) :
    ds.length = readers.length ∧
      ∃ items', collectZip readers ds = .ok items' ∧ Value.sameItems items' items = true := by
  induction h generalizing items ds with
  | nil =>
    obtain rfl := List.length_eq_zero_iff.mp hlength
    obtain rfl := Except.ok.inj hwrite
    exact ⟨rfl, [], rfl, by rw [Value.sameItems]⟩
  | @cons writer reader writers readers hpart hparts ih =>
    cases items with
    | nil => cases hlength
    | cons item items =>
      obtain ⟨d, hd, hwrite⟩ := exists_of_bind_eq_ok hwrite
      obtain ⟨ds, hds, hwrite⟩ := exists_of_bind_eq_ok hwrite
      obtain rfl := Except.ok.inj hwrite
      obtain ⟨-, item', hread, hsame⟩ := hpart item (hitems item (.head _)) d hd
      obtain ⟨hlen, items', hreads, hsames⟩ :=
        -- The lengths are compared as wholes by the converter, so the equality goes along the
        -- induction.
        ih (fun x hx => hitems x (.tail _ hx)) (Nat.succ.inj hlength) hds
      refine ⟨congrArg Nat.succ hlen, item' :: items', ?_, by
        simp [Value.sameItems, hsame, hsames]⟩
      rw [collectZip, hread, hreads]
      rfl

/-- Tuples give back what their items give back, where `encodes` is on. -/
theorem RoundTrips.tuple (h : PartsRoundTrip names writers readers) (type : Ty) :
    RoundTrips names (encodeTuple type writers true) (decodeTuple type readers) := by
  intro v hv d hwrite
  unfold encodeTuple at hwrite
  -- Writing is enabled, so that only the number of items can be wrong.
  rw [if_neg (by decide)] at hwrite
  cases v with
  | tuple items =>
    dsimp only at hwrite
    split_ifs at hwrite with hlength
    obtain ⟨ds, hds, hwrite⟩ := exists_of_bind_eq_ok hwrite
    obtain rfl := Except.ok.inj hwrite
    have hitems : ∀ item ∈ items, item.Sound names := fun item hitem => hv.at_part hitem
    obtain ⟨hlen, items', hread, hsame⟩ := exists_collectZip h hitems hlength hds
    refine ⟨fun h => absurd h Bool.false_ne_true, .tuple items', ?_, by rw [Value.same, hsame]⟩
    rw [decodeTuple, if_pos hlen, hread]
    rfl
  | _ => cases hwrite

/-! ## Records -/

/-- Records give back what their fields give back. The document names have to be distinct and other
    than `Datum.tagKey`, and the fields that were left out hold their defaults already. -/
theorem RoundTrips.record {type : RecordType} (h : PartsRoundTrip names writers readers)
    (hnodup : (type.fields.map Field.wireName).Nodup)
    (hreserved : Datum.tagKey ∉ type.fields.map Field.wireName)
    (hnamed : names.Declares (.record type)) (hwriters : writers.length = type.fields.length) :
    RoundTrips names (encodeRecord type writers) (decodeRecord type readers) := by
  intro v hv d hwrite
  cases v with
  | null =>
    obtain rfl := Except.ok.inj hwrite
    exact exists_read_null rfl
  | record other values =>
    rw [encodeRecord] at hwrite
    split_ifs at hwrite with hsame
    obtain ⟨members, hmembers, hwrite⟩ := exists_of_bind_eq_ok hwrite
    obtain rfl := Except.ok.inj hwrite
    -- Over one naming, records of the same type have one declaration.
    obtain rfl : other = type := by
      have hother : names.record other.name other.kind = other := hv.at_top.1.at_top
      have htype : names.record type.name type.kind = type := hnamed
      have hsame : (Ty.record other).same (.record type) = true := hsame
      simp only [Ty.same, Bool.and_eq_true, beq_iff_eq] at hsame
      rw [← hother, hsame.1, hsame.2, htype]
    have hvalues : ∀ value ∈ values, value.Sound names := fun value hvalue => hv.at_part hvalue
    have hfields : GiveBack writers readers values := by
      intro index writer reader value hwriter hreader hvalue d hd
      have hpart : RoundTrips names writer reader := related_of_getElem? h hwriter hreader
      exact (hpart value (hvalues value (List.mem_of_getElem? hvalue)) d hd).2
    obtain ⟨values', hread, hvalues'⟩ := exists_decodeRecord_encodeFields hnodup hreserved hwriters
      (h.length_eq.symm.trans hwriters) hv.at_top.2 hfields hmembers
    -- Reading puts each value at the place of its field, and the defaults at those that were left
    -- out.
    exact ⟨fun h => absurd h Bool.false_ne_true, .record other values', hread,
      by simp [Value.same, Ty.same, hvalues']⟩
  | _ => cases hwrite

end Converter

end DocQuery
