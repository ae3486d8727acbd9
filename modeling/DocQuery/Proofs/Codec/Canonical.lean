import DocQuery.Proofs.Codec.Leaf
import DocQuery.Proofs.Codec.Reading
import DocQuery.Proofs.Codec.RoundTrip
import DocQuery.Proofs.Codec.Undeclared
import DocQuery.Proofs.Datum.Canonical
import DocQuery.Proofs.Datum.Finite

/-!
# Dynamic values are written canonically

A document without times is read by its inferred type and written by the type of the value that came
out of it. What is written is the canonical form of the document and has its inferred type, so that
reading and writing it again changes nothing more.

## Key results

- `Codec.Leaf.stable_of_decode`: leaf codecs that documents have by themselves are stable
- `Factory.isStable_of_read`: converters of inferred types are stable
- `Engine.canonical_of_decode`: what an engine reads dynamically it writes canonically
-/

namespace DocQuery

open Sequence (collect exists_of_bind_eq_ok exists_of_forall₂ exists_of_map_eq_ok)

/-- The document holds no time at any depth. -/
abbrev Datum.Timeless : Datum → Prop :=
  Everywhere Datum.parts fun d => d.tag? ≠ some Datum.timeTag

/-- The value that was read from a document is written as another one, which is the canonical form
    of the first, has its type and gives the value again. -/
structure Converter.Stable (settings : Settings) (c : Converter) (d : Datum) (v : Value)
    (d' : Datum) : Prop where
  named : ∀ names : Naming, v.Named names
  written : dynamic.write settings v = .ok d'
  canonical : d'.same d.canonical = true
  inferred : d'.inferType = d.inferType
  readBack : c.read settings d' = .ok v

variable {settings : Settings} {c : Converter} {d d' : Datum} {v : Value}

/-- A `Stable` document is null where the first one is. -/
theorem Converter.Stable.isNull (h : Converter.Stable settings c d v d') :
    d'.isNull = d.isNull :=
  (Datum.isNull_eq_of_same h.canonical).trans d.isNull_canonical

/-! ## Leaf codecs -/

namespace Codec.Leaf

open Converter (Stable)

/-- The dynamic type writes a value that is not null by the codec of its `runtimeType`. -/
theorem write_dynamic_leaf {codec : Leaf} (hnull : v.isNull = false)
    (hleaf : Factory.leaf? settings v.runtimeType = some codec) :
    Converter.dynamic.write settings v = codec.encode v := by
  rw [Converter.write_dynamic_of_build hnull (Factory.build_leaf hleaf), Converter.write_leaf]

/-- A safe number is `Stable`: it is written as the whole number that it is. -/
theorem stable_int {x : Binary64} {n : IntKind.i64.Number} (h : narrowTo .i64 x = .ok n) :
    Stable settings (.leaf (.int .i64)) (.number x) (.int .i64 n) (Datum.ofInt n.val) := by
  -- A number that narrows to an integer is safe and is exactly that integer.
  have hx := safeInteger?_of_narrowTo h
  have hsafe := Datum.natAbs_le_of_safeInteger? hx
  have hleaf : Factory.leaf? settings (Value.int .i64 n).runtimeType = some (.int .i64) := rfl
  refine ⟨fun _ => .of_leaf rfl trivial, ?_, ?_, ?_, ?_⟩
  · rw [write_dynamic_leaf rfl hleaf, encode, if_neg (not_not.mpr rfl), if_pos hsafe]
  · rw [Datum.ofInt, Datum.canonical_number, Datum.same]
    exact Datum.safeInteger?_beq hx
  · rw [Datum.ofInt, Datum.inferType, Datum.inferType, Datum.safeInteger?_ofInt hsafe, hx]
  · rw [Converter.read_leaf, Datum.ofInt, decode, narrow, narrowTo_ofInt n hsafe]
    rfl

/-- Bytes are `Stable`: they are written as the text that they were read from. -/
theorem stable_binary (h : decodeBinary d = .ok v) :
    ∃ d', Stable settings (.leaf .binary) d v d' := by
  obtain ⟨bytes, text, rfl, htag, hdata, hbytes⟩ := exists_of_decodeBinary h
  have htag' : (encodeBinary bytes).tag? = some Datum.binaryTag := by
    simp [encodeBinary, Datum.tag?, Datum.get?, Members.get?, Datum.asString?]
  have hleaf : Factory.leaf? settings (Value.binary bytes).runtimeType = some .binary := rfl
  refine ⟨encodeBinary bytes, fun _ => .of_leaf rfl trivial, ?_, ?_, ?_, ?_⟩
  · rw [write_dynamic_leaf rfl hleaf, encode]
  · -- Only canonical base64 is read, so the text is the one that the bytes are written as.
    rw [Datum.canonical_tagged htag (.inl rfl) hdata, encodeBinary, Base64.encode_of_decode? hbytes]
    simp [Datum.same, Datum.sameMembers]
  · exact Datum.inferType_eq_of_tag? htag htag'
  · rw [Converter.read_leaf]
    exact decodeBinary_encodeBinary bytes

/-- Null is `Stable`: it is written as null and gives null again. -/
theorem stable_null (hread : c.read settings .null = .ok .null) :
    Stable settings c .null .null .null :=
  ⟨fun _ => .of_leaf rfl trivial, by rw [Converter.write_dynamic]; rfl, by simp [Datum.same], rfl,
    hread⟩

/-- A leaf that is written as it was read is `Stable`. -/
theorem stable_self (hparts : v.parts = []) (hnamed : ∀ names : Naming, names.Carries v)
    (hsame : d.same d = true) (hcanonical : d.canonical = d)
    (hwrite : Converter.dynamic.write settings v = .ok d) (hread : c.read settings d = .ok v) :
    Stable settings c d v d :=
  ⟨fun names => .of_leaf hparts (hnamed names), hwrite, by rw [hcanonical, hsame], rfl, hread⟩

/-- What a leaf codec that documents have by themselves reads with `decode` is `Stable`. -/
theorem stable_of_decode {codec : Leaf} (hcodec : codec.type.InferableNode) (hd : d.FiniteNode)
    (htime : d.tag? ≠ some Datum.timeTag) (h : codec.decode d = .ok v) :
    ∃ d', Stable settings (.leaf codec) d v d' := by
  have hread : Converter.read settings (.leaf codec) d = .ok v := by rw [Converter.read_leaf, h]
  cases codec with
  | bool =>
    cases d with
    | bool b =>
      obtain rfl := Except.ok.inj h
      have hleaf : Factory.leaf? settings (Value.bool b).runtimeType = some .bool := rfl
      exact ⟨.bool b, stable_self rfl (fun _ => trivial) (by simp [Datum.same]) (by simp)
        (write_dynamic_leaf rfl hleaf) hread⟩
    | _ => cases h
  | string =>
    cases d with
    | string s =>
      obtain rfl := Except.ok.inj h
      have hleaf : Factory.leaf? settings (Value.string s).runtimeType = some .string := rfl
      exact ⟨.string s, stable_self rfl (fun _ => trivial) (by simp [Datum.same]) (by simp)
        (write_dynamic_leaf rfl hleaf) hread⟩
    | _ => cases h
  | f64 =>
    cases d with
    | number x =>
      obtain rfl := Except.ok.inj h
      have hx : x.isFinite = true := hd
      have hleaf : Factory.leaf? settings (Value.f64 x).runtimeType = some .f64 := rfl
      refine ⟨.number x, stable_self rfl (fun _ => trivial) ?_ (by simp) ?_ hread⟩
      · rw [Datum.same]
        exact Binary.beq_self_of_isFinite hx
      · rw [write_dynamic_leaf rfl hleaf, encode, finiteNumber, if_pos hx]
    | _ => cases h
  | int kind =>
    cases kind with
    | i64 =>
      cases d with
      | number x =>
        obtain ⟨n, hn, rfl⟩ := exists_of_map_eq_ok h
        exact ⟨Datum.ofInt n.val, stable_int hn⟩
      | _ => cases h
    -- Documents infer no other whole number type.
    | _ => exact hcodec.elim
  | binary =>
    -- Of the types without parts only that of bytes reads null.
    cases d with
    | null =>
      obtain rfl := Except.ok.inj h
      exact ⟨.null, stable_null hread⟩
    | object members =>
      exact stable_binary h
    | _ => cases h
  | zoned millis =>
    -- Without a tag of times nothing is read as a time.
    rw [decode, decodeTime, if_pos htime] at h
    cases h
  | _ => exact hcodec.elim

end Codec.Leaf

/-! ## Containers -/

namespace Converter

/-- The value that was read from the document is written stably. -/
def IsStable (settings : Settings) (c : Converter) (d : Datum) (v : Value) : Prop :=
  ∃ d', Stable settings c d v d'

/-- Items that are `IsStable` are written together, with the types that they had. -/
theorem exists_collect_write {ds : List Datum} {items : List Value}
    (h : List.Forall₂ (IsStable settings c) ds items) :
    ∃ ds', collect (dynamic.write settings) items = .ok ds' ∧
      Datum.sameItems ds' (ds.map Datum.canonical) = true ∧
      List.Forall₂ (fun d d' => d'.isNull = d.isNull ∧ d'.inferType = d.inferType) ds ds' ∧
      collect (c.read settings) ds' = .ok items := by
  induction h with
  | nil => exact ⟨[], rfl, rfl, .nil, rfl⟩
  | cons hitem _ ih =>
    obtain ⟨d', hd'⟩ := hitem
    obtain ⟨ds', hwrites, hcanonical, hinferred, hreads⟩ := ih
    refine ⟨d' :: ds', ?_, ?_, .cons ⟨hd'.isNull, hd'.inferred⟩ hinferred, ?_⟩
    · -- In turn: writing the items, the canonical forms, reading the items back.
      rw [collect, hd'.written, hwrites]
      rfl
    · rw [List.map_cons, Datum.sameItems, hd'.canonical, hcanonical]
      rfl
    · rw [collect, hd'.readBack, hreads]
      rfl

/-- A list `IsStable` where its items are. -/
theorem isStable_list {ds : List Datum} {items : List Value}
    (h : List.Forall₂ (IsStable settings c) ds items) (type : Ty) :
    IsStable settings (list type c) (.array ds) (.list items) := by
  obtain ⟨ds', hwrites, hcanonical, hinferred, hreads⟩ := exists_collect_write h
  refine ⟨.array ds', fun names => .intro trivial fun item hitem => ?_, ?_, ?_, ?_, ?_⟩
  · obtain ⟨d, -, d', hd'⟩ := exists_of_forall₂ h item hitem
    exact hd'.named names
  · rw [write_dynamic_list, encodeList, hwrites]
    rfl
  · rw [Datum.canonical_array, Datum.same, hcanonical]
  · -- The type of a list is put together from the types of its items, which have not changed.
    rw [Datum.inferType, Datum.inferType, Datum.inferItems_congr hinferred]
  · rw [read_list, decodeList, hreads]
    rfl

/-- The member is read as the entry of its key, and its value is written stably. -/
def IsStableEntry (settings : Settings) (c : Converter) (m : String × Datum)
    (entry : String × Value) : Prop :=
  entry.1 = m.1 ∧ IsStable settings c m.2 entry.2

/-- Entries that are `IsStableEntry` are written together under their keys. -/
theorem exists_collect_encodeEntry {members : List (String × Datum)}
    {entries : List (String × Value)}
    (h : List.Forall₂ (IsStableEntry settings c) members entries) :
    ∃ members', collect (encodeEntry (dynamic.write settings)) entries = .ok members' ∧
      Datum.sameMembers members' (members.map fun m => (m.1, m.2.canonical)) = true ∧
      List.Forall₂ (ReadsEntry (c.read settings)) members' entries := by
  induction h with
  | nil => exact ⟨[], rfl, rfl, .nil⟩
  | @cons m entry members entries hentry _ ih =>
    obtain ⟨key, d⟩ := m
    obtain ⟨name, value⟩ := entry
    -- The entry has the key of the member.
    obtain ⟨rfl, d', hd'⟩ : name = key ∧ IsStable settings c d value := hentry
    obtain ⟨members', hwrites, hcanonical, hreads⟩ := ih
    refine ⟨(name, d') :: members', ?_, ?_, .cons ⟨rfl, hd'.readBack⟩ hreads⟩
    · -- In turn: writing and the canonical forms.
      rw [collect, encodeEntry, hd'.written, hwrites]
      rfl
    · rw [List.map_cons, Datum.sameMembers, hd'.canonical, hcanonical, beq_self_eq_true]
      rfl

/-- A map `IsStable` where its values are: its entries come in the order of their keys. -/
theorem isStable_map {members : List (String × Datum)} {decoded entries : List (String × Value)}
    (htag : (Datum.object members).tag? = none)
    (h : List.Forall₂ (IsStableEntry settings c) members decoded) (hperm : entries.Perm decoded)
    (hsorted : (entries.map Prod.fst).Pairwise (· < ·)) (type : Ty) :
    IsStable settings (map type c) (.object members) (.map entries) := by
  -- The members in the order of the entries.
  have hcomp : Relation.Comp (List.Forall₂ (IsStableEntry settings c)) List.Perm members entries :=
    ⟨decoded, h, hperm.symm⟩
  rw [List.forall₂_comp_perm_eq_perm_comp_forall₂] at hcomp
  obtain ⟨sorted, hmembers, hentries⟩ := hcomp
  obtain ⟨members', hwrites, hcanonical, hreads⟩ := exists_collect_encodeEntry hentries
  have hkeys : sorted.map Prod.fst = entries.map Prod.fst := by
    rw [← List.forall₂_eq_eq_eq, List.forall₂_map_left_iff, List.forall₂_map_right_iff]
    exact hentries.imp fun _ _ hentry => hentry.1.symm
  have hnodup : (members.map Prod.fst).Nodup := by
    rw [(hmembers.map Prod.fst).nodup_iff, hkeys]
    exact hsorted.imp ne_of_lt
  -- The tag is looked up by its key, so the order of members does not matter, and none is made up
  -- by the canonical form.
  have htag' : (Datum.object members').tag? = none := by
    rw [Datum.tag?, Datum.get?, Datum.get?_eq_of_sameMembers hcanonical]
    rw [← htag, ← Datum.tag?_canonical_members, Datum.tag?, Datum.get?,
      Datum.get?_map_canonical, Datum.get?_map_canonical, Members.get?_of_perm hmembers hnodup]
  refine ⟨.object members', fun names => .intro trivial fun value hvalue => ?_, ?_, ?_, ?_, ?_⟩
  · obtain ⟨entry, hentry, rfl⟩ := List.mem_map.mp hvalue
    obtain ⟨m, -, -, d', hd'⟩ := exists_of_forall₂ hentries entry hentry
    exact hd'.named names
  · rw [write_dynamic_map, encodeMap, hwrites]
    rfl
  · have hkeys' : (sorted.map fun m => (m.1, m.2.canonical)).map Prod.fst =
        entries.map Prod.fst := by
      rw [List.map_map, ← hkeys]
      rfl
    rw [Datum.canonical_plain htag, Datum.sortMembers_eq (hmembers.symm.map _)
      (hkeys' ▸ hsorted), Datum.same, hcanonical]
  · rw [Datum.inferType_plain htag', Datum.inferType_plain htag]
  · rw [read_map, decodeMap, htag', if_neg (by decide),
      decodeEntries_of_forall₂ hreads hsorted fun _ hk => absurd hk List.not_mem_nil]
    rfl

variable {k : Converter}

/-- The pair is read as the group, and both its parts are written stably. -/
def IsStableGroup (settings : Settings) (k c : Converter) (pair : Datum) (group : Value × Value) :
    Prop :=
  ∃ key value, pair = .array [key, value] ∧ IsStable settings k key group.1 ∧
    IsStable settings c value group.2

/-- Groups that are `IsStableGroup` are written together at their places. -/
theorem exists_collect_encodeGroup {pairs : List Datum} {groups : List (Value × Value)}
    (h : List.Forall₂ (IsStableGroup settings k c) pairs groups) :
    ∃ ds, collect (encodeGroup (dynamic.write settings) (dynamic.write settings)) groups =
        .ok ds ∧
      Datum.sameItems ds (pairs.map Datum.canonical) = true ∧
      collect (decodeGroup (k.read settings) (c.read settings)) ds = .ok groups := by
  induction h with
  | nil => exact ⟨[], rfl, rfl, rfl⟩
  | @cons pair group pairs groups hgroup _ ih =>
    -- Key and value of a group are stable each.
    obtain ⟨key, value, rfl, ⟨key', hkey⟩, value', hvalue⟩ := hgroup
    obtain ⟨ds, hwrites, hcanonical, hreads⟩ := ih
    refine ⟨.array [key', value'] :: ds, ?_, ?_, ?_⟩
    · -- In turn: writing, the canonical forms, reading back.
      rw [collect, encodeGroup, hkey.written, hvalue.written, hwrites]
      rfl
    · rw [List.map_cons, Datum.sameItems, hcanonical, Datum.canonical_array]
      simp [Datum.same, Datum.sameItems, hkey.canonical, hvalue.canonical]
    · rw [collect, decodeGroup, hkey.readBack, hvalue.readBack, hreads]
      rfl

/-- A grouping `IsStable` where its groups are. -/
theorem isStable_grouping {pairs : List Datum} {groups : List (Value × Value)}
    (htag : d.tag? = some Datum.groupedTag) (hdata : d.get? "data" = some (.array pairs))
    (h : List.Forall₂ (IsStableGroup settings k c) pairs groups) (type : Ty) :
    IsStable settings (grouping type k c) d (.grouping groups) := by
  -- The groups written anew: they are canonical, and read back as the same groups.
  obtain ⟨ds, hwrites, hcanonical, hreads⟩ := exists_collect_encodeGroup h
  have htag' : (Datum.object [(Datum.tagKey, .string Datum.groupedTag),
      ("data", .array ds)]).tag? = some Datum.groupedTag := by
    simp [Datum.tag?, Datum.get?, Members.get?, Datum.asString?]
  have hdata' : ((Datum.object [(Datum.tagKey, .string Datum.groupedTag),
      ("data", .array ds)]).get? "data").bind Datum.asArray? = some ds := by
    simp [Datum.get?, Members.get?, Datum.asArray?, Datum.tagKey]
  -- In turn: the names, what is written, its canonical form, its inferred type, what it reads as.
  refine ⟨.object [(Datum.tagKey, .string Datum.groupedTag), ("data", .array ds)],
    fun names => .intro trivial fun part hpart => ?_, ?_, ?_, ?_, ?_⟩
  · -- A part is a key or a value of one of the groups.
    obtain ⟨group, hgroup, hpart⟩ := List.mem_flatMap.mp hpart
    obtain ⟨pair, -, key, value, -, ⟨key', hkey⟩, value', hvalue⟩ :=
      exists_of_forall₂ h group hgroup
    simp only [List.mem_cons, List.not_mem_nil, or_false] at hpart
    rcases hpart with rfl | rfl
    · exact hkey.named names
    · exact hvalue.named names
  · -- Writing a grouping puts the groups under its tag.
    rw [write_dynamic_grouping, encodeGrouping, hwrites]
    rfl
  · -- Of the object only the tag and the data are kept.
    rw [Datum.canonical_tagged htag (.inr rfl) hdata, Datum.canonical_array]
    simp [Datum.same, Datum.sameMembers, hcanonical]
  · exact Datum.inferType_eq_of_tag? htag htag'
  · rw [read_grouping, decodeGrouping, if_neg (by simp [Datum.isNull]), if_neg (by simp [htag']),
      hdata']
    dsimp only
    rw [hreads]
    rfl

end Converter

/-! ## Converters of inferred types -/

namespace Factory

open Converter (IsStable reading_induction)

/-- What a converter that goes down reads `IsStable`, where that is so of everything that lies
    deeper. -/
theorem isStable_of_read_guarded {t : Ty} (ht : t.Inferable) (hdynamic : t ≠ .dynamic)
    (hoption : ∀ inner, t ≠ .option inner) (hd : d.Finite) (htime : d.Timeless)
    (hparts : ∀ s : Ty, s.Inferable → ∀ c, build (defaults settings) s = .ok c → ∀ p : Datum,
      p.depth < d.depth → p.Finite → p.Timeless → ∀ v, c.read settings p = .ok v →
        IsStable settings c p v)
    (hc : build (defaults settings) t = .ok c) (h : c.read settings d = .ok v) :
    IsStable settings c d v := by
  -- The parts are below the datum, and both conditions on it hold of them.
  have hmem : ∀ s : Ty, s.Inferable → ∀ c, build (defaults settings) s = .ok c → ∀ p ∈ d.parts,
      ∀ v, c.read settings p = .ok v → IsStable settings c p v :=
    fun s hs c hc p hp => hparts s hs c hc p (Datum.depth_lt_of_mem_parts hp) (hd.at_part hp)
      (htime.at_part hp)
  -- One case for each kind of converter; tuples and records are never inferred.
  cases builds_of_build hc with
  | leaf hleaf =>
    have htype := type_of_leaf? hleaf
    rw [Converter.read_leaf] at h
    exact Codec.Leaf.stable_of_decode (htype ▸ ht.at_top) hd.at_top htime.at_top h
  | option _ => exact absurd rfl (hoption _)
  | dynamic => exact absurd rfl hdynamic
  | tuple _ _ => exact ht.at_top.elim
  | record _ => exact ht.at_top.elim
  | list element =>
    rw [Converter.read_list] at h
    rcases Converter.exists_of_decodeList h with ⟨rfl, rfl⟩ | ⟨ds, items, rfl, rfl, hitems⟩
    · -- Null in place of a list is written as null again.
      exact ⟨.null, Codec.Leaf.stable_null (by rw [Converter.read_list]; rfl)⟩
    · refine Converter.isStable_list (Sequence.forall₂_imp_mem hitems fun p hp item hitem => ?_) _
      exact hmem _ (ht.at_part (.head _)) _ element p hp item hitem
  | map value =>
    rw [Converter.read_map] at h
    rcases Converter.exists_of_decodeMap h with
      ⟨rfl, rfl⟩ | ⟨members, decoded, entries, rfl, htag, rfl, hdecoded, hperm, hsorted⟩
    · exact ⟨.null, Codec.Leaf.stable_null (by rw [Converter.read_map]; rfl)⟩
    · -- Entries are read in another order than that of the members, so `hperm` goes along.
      refine Converter.isStable_map htag (Sequence.forall₂_imp_mem hdecoded fun m hm entry hentry =>
        ⟨hentry.1, ?_⟩) hperm hsorted _
      exact hmem _ (ht.at_part (.head _)) _ value m.2 (List.mem_map_of_mem hm) entry.2 hentry.2
  | grouping key value =>
    rw [Converter.read_grouping] at h
    rcases Converter.exists_of_decodeGrouping h with
      ⟨rfl, rfl⟩ | ⟨pairs, groups, htag, hdata, rfl, hgroups⟩
    · exact ⟨.null, Codec.Leaf.stable_null (by rw [Converter.read_grouping]; rfl)⟩
    · -- The groups lie in an array in an array in the object, so their parts lie deeper by three.
      have hpart := Datum.mem_parts_of_get? hdata
      refine Converter.isStable_grouping htag hdata
        (Sequence.forall₂_imp_mem hgroups fun pair hpair group hgroup => ?_) _
      obtain ⟨p, q, rfl, hp, hq⟩ := hgroup
      have hdepth := Converter.depth_lt_of_readsGroup hdata hpair rfl
      have hfinite := (hd.at_part hpart).at_part hpair
      have htimeless := (htime.at_part hpart).at_part hpair
      exact ⟨p, q, rfl,
        hparts _ (ht.at_part (.head _)) _ key p hdepth.1 (hfinite.at_part (.head _))
          (htimeless.at_part (.head _)) _ hp,
        hparts _ (ht.at_part (.tail _ (.head _))) _ value q hdepth.2
          (hfinite.at_part (.tail _ (.head _))) (htimeless.at_part (.tail _ (.head _))) _ hq⟩

/-- What a converter of a type that documents have by themselves reads from a `Timeless` document
    `IsStable`. -/
theorem isStable_of_read {t : Ty} (ht : t.Inferable)
    (hc : build (defaults settings) t = .ok c) (hd : d.Finite) (htime : d.Timeless)
    -- By induction along the reading: down into the parts, into an option, and to an inferred type.
    (h : c.read settings d = .ok v) : IsStable settings c d v := by
  revert c v
  refine reading_induction (motive := fun t d => t.Inferable → d.Finite → d.Timeless →
    ∀ {c : Converter} {v : Value}, build (defaults settings) t = .ok c →
      c.read settings d = .ok v → IsStable settings c d v) ?_ ?_ ?_ t d ht hd htime
  · -- A converter that goes down.
    intro t d hdynamic hoption ih ht hd htime c v hc h
    exact isStable_of_read_guarded ht hdynamic hoption hd htime
      (fun s hs c hc p hp hfinite htimeless v h => ih s p hp hs hfinite htimeless hc h) hc h
  · -- Null is absence, and anything else is read as the inner type.
    intro inner d ih ht hd htime c v hc h
    cases builds_of_build hc with
    | leaf hleaf => cases hleaf
    | option hinner =>
      rw [Converter.read_nullable] at h
      split at h
      · rename_i hnull
        obtain rfl := Except.ok.inj h
        cases d with
        | null => exact ⟨.null, Codec.Leaf.stable_null (by rw [Converter.read_nullable]; rfl)⟩
        | _ => cases hnull
      · rename_i hnull
        obtain ⟨d', hd'⟩ := ih (Ty.inferable_option.mp ht) hd htime hinner h
        refine ⟨d', hd'.named, hd'.written, hd'.canonical, hd'.inferred, ?_⟩
        rw [Converter.read_nullable, hd'.isNull, if_neg hnull, hd'.readBack]
  · -- The type is seen from the document, and seen again from what is written.
    intro d ih _ hd htime c v hc h
    rw [build_dynamic] at hc
    obtain rfl := Except.ok.inj hc
    have hread := h
    rw [Converter.read_dynamic] at h
    obtain ⟨t, hinfer, h⟩ := exists_of_bind_eq_ok h
    split at h
    · -- The type is only dynamic where the document is null.
      rename_i hdynamic
      obtain rfl := Except.ok.inj h
      obtain rfl : t = .dynamic := by cases t <;> first | rfl | simp [BEq.beq, Ty.same] at hdynamic
      obtain rfl := Datum.eq_null_of_inferType hinfer
      exact ⟨.null, Codec.Leaf.stable_null hread⟩
    · rename_i hdynamic
      obtain ⟨c, hc, h⟩ := exists_of_bind_eq_ok h
      have hne : t ≠ .dynamic := by
        rintro rfl
        exact hdynamic (Ty.same_refl _)
      obtain ⟨d', hd'⟩ := ih t hne (Datum.inferType_ne_option hinfer)
        (Datum.inferable_of_inferType hinfer) hd htime hc h
      refine ⟨d', hd'.named, hd'.written, hd'.canonical, hd'.inferred, ?_⟩
      -- What is written has the type of the document, so the same converter reads it.
      rw [Converter.read_dynamic, hd'.inferred, hinfer]
      show (if t == .dynamic then _ else _) = _
      rw [if_neg hdynamic, hc]
      exact hd'.readBack

end Factory

/-! ## Engines -/

namespace Engine

variable {cache : ConverterCache}

/-- What an engine reads with `decode .dynamic` from a `Timeless` document it writes with
    `encode .dynamic` as the `canonical` form of the document. This has the type of the document,
    and reading and writing it gives it again, whatever the engine was asked for before and
    meanwhile. -/
theorem canonical_of_decode (hd : d.Finite) (htime : d.Timeless)
    (hcache : (ofSettings settings).Reaches .empty cache)
    (hdecode : (((ofSettings settings).decode .dynamic d).run cache).1 = .ok v) :
    ∃ d', d'.same d.canonical = true ∧ d'.inferType = d.inferType ∧
      ∀ later, (ofSettings settings).Reaches .empty later →
        (((ofSettings settings).encode .dynamic v).run later).1 = .ok d' ∧
        ∃ v', (((ofSettings settings).decode .dynamic d').run later).1 = .ok v' ∧
          ∀ last, (ofSettings settings).Reaches .empty last →
            (((ofSettings settings).encode .dynamic v').run last).1 = .ok d' := by
  have hbuild : Factory.build (Factory.defaults settings) .dynamic = .ok .dynamic :=
    Factory.build_dynamic
  -- Whatever the caches hold, the engine reads and writes by the bare converter.
  rw [hcache.decode_eq_read Ty.named_dynamic d, hbuild] at hdecode
  have ht : Ty.dynamic.Inferable := .of_leaf rfl trivial
  obtain ⟨d', hd'⟩ := Factory.isStable_of_read ht hbuild hd htime hdecode
  have hwrite : ∀ later, (ofSettings settings).Reaches .empty later →
      (((ofSettings settings).encode .dynamic v).run later).1 = .ok d' := by
    intro later hlater
    rw [hlater.encode_eq_write Ty.named_dynamic (hd'.named _), hbuild]
    exact hd'.written
  refine ⟨d', hd'.canonical, hd'.inferred, fun later hlater => ⟨hwrite later hlater, v, ?_, hwrite⟩⟩
  rw [hlater.decode_eq_read Ty.named_dynamic d', hbuild]
  exact hd'.readBack

/-- A plain object whose members are not in the order of their keys. -/
def unorderedDatum : Datum := .object [("b", .bool true), ("a", .null)]

def unordered : Value := .map [("a", .null), ("b", .bool true)]

/-- The document `unorderedDatum` has no numbers, so it is `Finite`. -/
theorem finite_unorderedDatum : unorderedDatum.Finite := by
  refine .intro trivial ?_
  simp only [unorderedDatum, Datum.parts, List.map, List.forall_mem_cons]
  exact ⟨.of_leaf rfl trivial, .of_leaf rfl trivial, List.forall_mem_nil _⟩

/-- The document `unorderedDatum` is `Timeless`, as it has no tag. -/
theorem timeless_unorderedDatum : unorderedDatum.Timeless := by
  have htag : unorderedDatum.tag? = none := rfl
  refine .intro (by rw [htag]; decide) ?_
  simp only [unorderedDatum, Datum.parts, List.map, List.forall_mem_cons]
  exact ⟨.of_leaf rfl (by decide), .of_leaf rfl (by decide), List.forall_mem_nil _⟩

/-- The document is read as `unordered`: the entries of the map are in the order of their keys. -/
theorem decode_unorderedDatum :
    (((ofSettings {}).decode .dynamic unorderedDatum).run .empty).1 = .ok unordered := by
  -- The members say that the document is a map, and each is read on its own.
  have hmap : Factory.build (Factory.defaults {}) (.map .dynamic) =
      .ok (.map (.map .dynamic) .dynamic) := by
    rw [Factory.build_map, Factory.build_dynamic]
    rfl
  have hbool : Converter.dynamic.read {} (.bool true) = .ok (.bool true) := by
    have hleaf : Factory.build (Factory.defaults {}) .bool = .ok (.leaf .bool) :=
      Factory.build_leaf rfl
    rw [Converter.read_dynamic, Datum.inferType]
    show Factory.build (Factory.defaults {}) .bool >>= _ = _
    rw [hleaf]
    show Converter.read {} _ _ = _
    rw [Converter.read_leaf]
    rfl
  -- Nothing is cached yet.
  have hcache : (ofSettings {}).Reaches .empty .empty := .refl
  rw [hcache.decode_eq_read Ty.named_dynamic _, Factory.build_dynamic]
  show Converter.read {} _ _ = _
  rw [Converter.read_dynamic, unorderedDatum, Datum.inferType_plain rfl]
  show Factory.build (Factory.defaults {}) (.map .dynamic) >>= _ = _
  rw [hmap]
  show Converter.read {} _ _ = _
  rw [Converter.read_map, Converter.decodeMap]
  simp only [Converter.decodeEntries, hbool, Converter.read_dynamic_null]
  rfl

/-- The map that was read from `unorderedDatum` is written with its members in order. -/
theorem canonical_of_decode_unordered :
    (unorderedDatum.Finite ∧ unorderedDatum.Timeless ∧
      (ofSettings {}).Reaches .empty .empty ∧
      (((ofSettings {}).decode .dynamic unorderedDatum).run .empty).1 = .ok unordered) ∧
    ∃ d', d'.same unorderedDatum.canonical = true ∧ d'.inferType = unorderedDatum.inferType ∧
      ∀ later, (ofSettings {}).Reaches .empty later →
        (((ofSettings {}).encode .dynamic unordered).run later).1 = .ok d' ∧
        ∃ v', (((ofSettings {}).decode .dynamic d').run later).1 = .ok v' ∧
          ∀ last, (ofSettings {}).Reaches .empty last →
            (((ofSettings {}).encode .dynamic v').run last).1 = .ok d' :=
  ⟨⟨finite_unorderedDatum, timeless_unorderedDatum, .refl, decode_unorderedDatum⟩,
    canonical_of_decode finite_unorderedDatum timeless_unorderedDatum .refl decode_unorderedDatum⟩

end Engine

end DocQuery
