import DocQuery.Proofs.Codec.Dynamic
import DocQuery.Proofs.Codec.Leaf
import DocQuery.Proofs.Schema.Assignable
import DocQuery.Proofs.Schema.Cast

/-!
# Assignable types

Where one type is assignable from another, a value that can be written as the other is converted to
it and then written as the same document. A dynamic value is written by its runtime type; it gives
the document that any type gives that can write the value at all.

## Key results

- `Factory.write_dynamic_of_write`: the dynamic type writes what any other type writes
- `Factory.cast_of_write`: a value is converted to the type that writes it without a change
- `Engine.encode_cast`: an assignable type writes the same document
-/

namespace DocQuery

open Sequence (collect collectZip collect_eq_ok_of_imp exists_of_bind_eq_ok exists_of_map_eq_ok)

/-! ## Conversion -/

namespace Value

variable {names : Naming}

/-- `cast` leaves a value over its naming. -/
theorem Named.cast {v v' : Value} {t : Ty} (hv : v.Named names) (h : v.cast t = .ok v') :
    v'.Named names := by
  -- The value is as it was, or a number or a time, which names nothing.
  rcases eq_or_atomic_of_cast h with rfl | hatomic
  · exact hv
  · exact hatomic.named names

end Value

namespace Codec.Leaf

variable {names : Naming}

/-- What `encode` of a leaf codec writes is a value of its type, or null. -/
theorem runtimeType_of_encode {leaf : Leaf} (hleaf : names.Declares leaf.type) {v : Value}
    (hv : v.Named names) (hnull : v.isNull = false) {d : Datum} (h : leaf.encode v = .ok d) :
    v.runtimeType = leaf.type := by
  -- Integers and enumerations are the codecs that share a kind of value; each checks which it is.
  cases leaf with
  | int kind =>
    cases v with
    | int k n =>
      rw [encode] at h
      split_ifs at h with hkind
      obtain rfl := not_not.mp hkind
      rfl
    | _ => cases h
  | enum e encoding =>
    cases v with
    | enum other discriminant =>
      rw [encode] at h
      split_ifs at h with hname
      -- Over one naming, an enumeration is known by its name.
      have hother : names.enum other.name = other := hv.at_top.at_top
      -- The value's own enumeration and that of the codec are both the one that bears the name.
      have he : names.enum e.name = e := hleaf
      obtain rfl : other = e := by rw [← hother, hname, he]
      rfl
    | _ => cases h
  -- The codec of bytes takes null too, which `hnull` leaves out.
  | binary =>
    cases v with
    | null => cases hnull
    | binary bytes => rfl
    | _ => cases h
  -- The other codecs refuse every value but those of their own kind.
  | _ => cases v <;> first | rfl | cases h

/-- `encode` writes null as null. -/
theorem encode_null {leaf : Leaf} {d : Datum} (h : leaf.encode .null = .ok d) : d = .null := by
  cases leaf with
  | binary => exact (Except.ok.inj h).symm
  | _ => cases h

end Codec.Leaf

namespace Factory

variable {settings : Settings} {names : Naming} {t : Ty} {c : Converter} {v : Value} {d : Datum}

/-! ## Null -/

/-- A converter that `build` gives writes null as null, if it writes it at all. -/
theorem eq_null_of_write_null (hc : build (defaults settings) t = .ok c)
    (h : c.write settings .null = .ok d) : d = .null := by
  -- Each converter looks for null first, so one rule of `write` settles each case.
  cases builds_of_build hc with
  | leaf hleaf =>
    rw [Converter.write_leaf] at h
    exact Codec.Leaf.encode_null h
  | option _ =>
    rw [Converter.write_nullable] at h
    exact (Except.ok.inj h).symm
  | list _ =>
    rw [Converter.write_list] at h
    exact (Except.ok.inj h).symm
  | map _ =>
    rw [Converter.write_map] at h
    exact (Except.ok.inj h).symm
  | grouping _ _ =>
    rw [Converter.write_grouping] at h
    exact (Except.ok.inj h).symm
  | tuple _ _ =>
    rw [Converter.write_tuple] at h
    -- A tuple is not written from null.
    unfold Converter.encodeTuple at h
    split at h <;> cases h
  | record _ =>
    rw [Converter.write_record] at h
    exact (Except.ok.inj h).symm
  | dynamic =>
    rw [Converter.write_dynamic] at h
    exact (Except.ok.inj h).symm

/-! ## Dynamic values -/

/-- What the dynamic type writes is written by the converter that `build` gives for the
    `runtimeType`, also where the value is null. -/
theorem exists_of_write_dynamic (h : Converter.dynamic.write settings v = .ok d) :
    ∃ c, build (defaults settings) v.runtimeType = .ok c ∧ c.write settings v = .ok d := by
  cases hnull : v.isNull with
  | true =>
    cases v with
    | null => exact ⟨.dynamic, build_dynamic, h⟩
    | _ => cases hnull
  -- A value that is there is written by the converter of its runtime type.
  | false =>
    rw [Converter.write_dynamic, hnull, if_neg Bool.false_ne_true] at h
    exact exists_of_bind_eq_ok h

/-- Items that the dynamic type writes are written by the converters of their `runtimeTypes`, each
    at its place. -/
theorem exists_of_collect_write_dynamic {items : List Value} {ds : List Datum}
    (h : collect (Converter.dynamic.write settings) items = .ok ds) :
    ∃ cs, collect (build (defaults settings)) (Value.runtimeTypes items) = .ok cs ∧
      cs.length = items.length ∧ collectZip (cs.map (Converter.write settings)) items = .ok ds := by
  induction items generalizing ds with
  | nil => exact ⟨[], rfl, rfl, h⟩
  | cons item rest ih =>
    obtain ⟨d, hd, h⟩ := exists_of_bind_eq_ok h
    obtain ⟨ds', hds, h⟩ := exists_of_bind_eq_ok h
    -- Each item has a converter of its own, so the list of converters grows with the items.
    obtain ⟨c, hc, hwrite⟩ := exists_of_write_dynamic hd
    obtain ⟨cs, hcs, hlength, hwrites⟩ := ih hds
    refine ⟨c :: cs, ?_, congrArg Nat.succ hlength, ?_⟩
    · rw [Value.runtimeTypes, collect, hc, hcs]
      rfl
    · rw [List.map_cons, collectZip, hwrite, hwrites]
      exact h

/-- Items that `collectZip` writes with converters at their places are written alike by `collect`
    with one `step` that writes what these do. -/
theorem collect_of_collectZip {cs : List Converter} {ts : List Ty} {items : List Value}
    {ds : List Datum} {step : Value → Except Error Datum}
    (hcs : List.Forall₂ (fun t c => build (defaults settings) t = .ok c) ts cs)
    (hlength : items.length = cs.length)
    (hstep : ∀ t ∈ ts, ∀ c, build (defaults settings) t = .ok c → ∀ v ∈ items, ∀ d,
      c.write settings v = .ok d → step v = .ok d)
    (h : collectZip (cs.map (Converter.write settings)) items = .ok ds) :
    collect step items = .ok ds := by
  -- Induction on the converters, which the items are paired with.
  induction hcs generalizing items ds with
  | nil =>
    obtain rfl := List.length_eq_zero_iff.mp hlength
    exact h
  | @cons t c ts cs hc _ ih =>
    -- The lengths agree, so there is an item for the converter.
    cases items with
    | nil => cases hlength
    | cons item rest =>
      obtain ⟨d, hd, h⟩ := exists_of_bind_eq_ok h
      obtain ⟨ds', hds, h⟩ := exists_of_bind_eq_ok h
      -- The items that are left are parts of the same value, with types further on in the list.
      have hrest := ih (Nat.succ.inj hlength)
        (fun t ht c hc v hv => hstep t (.tail _ ht) c hc v (.tail _ hv)) hds
      rw [collect, hstep t (.head _) c hc item (.head _) d hd, hrest]
      exact h

/-- The dynamic type writes a tuple of items that it writes one by one. -/
theorem write_dynamic_tuple (hencodes : settings.tupleEncoding = true) {items : List Value}
    (hitems : items ≠ []) {ds : List Datum}
    (h : collect (Converter.dynamic.write settings) items = .ok ds) :
    Converter.dynamic.write settings (.tuple items) = .ok (.array ds) := by
  obtain ⟨cs, hcs, hlength, hwrites⟩ := exists_of_collect_write_dynamic h
  -- There is a type for each item, so the runtime type is that of a tuple with items.
  have hruntime : Value.runtimeTypes items ≠ [] := by
    cases items with
    | nil => exact absurd rfl hitems
    | cons item rest => exact List.cons_ne_nil _ _
  have hbuild : build (defaults settings) (Value.tuple items).runtimeType =
      .ok (.tuple (.tuple (Value.runtimeTypes items)) cs settings.tupleEncoding) := by
    rw [Value.runtimeType, build_tuple hruntime, hcs]
    rfl
  rw [Converter.write_dynamic_of_build rfl hbuild, Converter.write_tuple, hencodes]
  unfold Converter.encodeTuple
  rw [if_neg (by decide)]
  dsimp only
  rw [List.length_map, if_pos hlength.symm, hwrites]
  rfl

/-- Whatever parts of the value are written that way the dynamic type writes as the same
    documents. -/
abbrev WritesParts (settings : Settings) (v : Value) (write : Value → Except Error Datum) : Prop :=
  ∀ part ∈ v.parts, ∀ d, write part = .ok d → Converter.dynamic.write settings part = .ok d

section Containers

variable {write second : Value → Except Error Datum}

/-- `encodeList` and the dynamic type write the same array where they do so for the items. -/
theorem write_dynamic_of_encodeList (hwrite : WritesParts settings v write)
    (hnull : v.isNull = false) (h : Converter.encodeList t write v = .ok d) :
    Converter.dynamic.write settings v = .ok d := by
  cases v with
  | list items =>
    obtain ⟨ds, hds, h⟩ := exists_of_bind_eq_ok h
    -- The dynamic converter writes each item as the converter of the elements does.
    have hitems : collect (Converter.dynamic.write settings) items = .ok ds :=
      collect_eq_ok_of_imp hwrite hds
    rw [Converter.write_dynamic_list, Converter.encodeList, hitems]
    exact h
  | null => cases hnull
  | _ => cases h

/-- `encodeMap` and the dynamic type write the same object where they do so for the values. -/
theorem write_dynamic_of_encodeMap (hwrite : WritesParts settings v write)
    (hnull : v.isNull = false) (h : Converter.encodeMap t write v = .ok d) :
    Converter.dynamic.write settings v = .ok d := by
  cases v with
  | map entries =>
    obtain ⟨members, hmembers, h⟩ := exists_of_bind_eq_ok h
    have hentries : collect (Converter.encodeEntry (Converter.dynamic.write settings)) entries =
        .ok members := by
      refine collect_eq_ok_of_imp (fun entry hentry member hmember => ?_) hmembers
      obtain ⟨d, hd, hmember⟩ := exists_of_bind_eq_ok hmember
      -- Keys are written as they are on both ways.
      rw [Converter.encodeEntry, hwrite _ (List.mem_map_of_mem hentry) d hd]
      exact hmember
    rw [Converter.write_dynamic_map, Converter.encodeMap, hentries]
    exact h
  | null => cases hnull
  | _ => cases h

/-- `encodeGrouping` and the dynamic type write the same groups where they do so for keys and
    values. -/
theorem write_dynamic_of_encodeGrouping (hwrite : WritesParts settings v write)
    (hsecond : WritesParts settings v second) (hnull : v.isNull = false)
    (h : Converter.encodeGrouping t write second v = .ok d) :
    Converter.dynamic.write settings v = .ok d := by
  -- Only groupings and null pass the codec, and null is left out.
  cases v with
  | grouping groups =>
    obtain ⟨ds, hds, h⟩ := exists_of_bind_eq_ok h
    have hgroups : collect (Converter.encodeGroup (Converter.dynamic.write settings)
        (Converter.dynamic.write settings)) groups = .ok ds := by
      refine collect_eq_ok_of_imp (fun group hgroup d hd => ?_) hds
      -- Key and value of a group are parts of the grouping, which the writers of parts are known
      -- for.
      have hparts : ∀ part ∈ [group.1, group.2], part ∈ (Value.grouping groups).parts :=
        fun part hpart => List.mem_flatMap.mpr ⟨group, hgroup, hpart⟩
      obtain ⟨key, hkey, hd⟩ := exists_of_bind_eq_ok hd
      obtain ⟨value, hvalue, hd⟩ := exists_of_bind_eq_ok hd
      rw [Converter.encodeGroup, hwrite _ (hparts _ (.head _)) key hkey,
        hsecond _ (hparts _ (.tail _ (.head _))) value hvalue]
      exact hd
    rw [Converter.write_dynamic_grouping, Converter.encodeGrouping, hgroups]
    exact h
  | null => cases hnull
  | _ => cases h

/-- `encodeTuple` and the dynamic type write the same array where they do so for the items. A tuple
    is only written where it has items and as many as its type. -/
theorem write_dynamic_of_encodeTuple {ts : List Ty} {cs : List Converter} (hne : ts ≠ [])
    (hcs : List.Forall₂ (fun t c => build (defaults settings) t = .ok c) ts cs)
    (hwrite : ∀ s ∈ ts, ∀ c, build (defaults settings) s = .ok c →
      WritesParts settings v (c.write settings))
    (h : Converter.encodeTuple t (cs.map (Converter.write settings)) settings.tupleEncoding v =
      .ok d) : Converter.dynamic.write settings v = .ok d := by
  unfold Converter.encodeTuple at h
  split at h
  · -- Without an encoding no tuple is written.
    cases h
  · rename_i hencodes
    cases v with
    | tuple values =>
      dsimp only at h
      rw [List.length_map] at h
      split_ifs at h with hlength
      obtain ⟨ds, hds, h⟩ := exists_of_bind_eq_ok h
      have hvalues := collect_of_collectZip hcs hlength hwrite hds
      -- The dynamic encoder takes the empty list for one, but a tuple type has items.
      have hsome : values ≠ [] := by
        rintro rfl
        exact hne (List.length_eq_zero_iff.mp (hcs.length_eq.trans hlength.symm))
      rw [write_dynamic_tuple (by simpa using hencodes) hsome hvalues]
      exact h
    | _ => cases h

end Containers

/-- The dynamic type writes whatever any type writes, as the same document. -/
theorem write_dynamic_of_write (ht : t.Named names) (hv : v.Named names)
    (hc : build (defaults settings) t = .ok c) (h : c.write settings v = .ok d) :
    Converter.dynamic.write settings v = .ok d := by
  -- By induction on the type: what a container holds is written dynamically as by its converter.
  induction ht generalizing c v d with
  | @intro t top rest ih =>
  have hwrite : ∀ s ∈ t.components, ∀ c, build (defaults settings) s = .ok c →
      WritesParts settings v (c.write settings) :=
    fun s hs c hc part hpart d hd => ih s hs (hv.at_part hpart) hc hd
  cases hnull : v.isNull with
  -- Null is left out first: every type writes it as null.
  | true =>
    cases v with
    | null =>
      rw [eq_null_of_write_null hc h, Converter.write_dynamic]
      rfl
    | _ => cases hnull
  | false =>
  cases builds_of_build hc with
  | leaf hleaf =>
    have htype := type_of_leaf? hleaf
    have hencode := h
    rw [Converter.write_leaf] at hencode
    -- The value is of the type, so its runtime type has the same codec.
    have hruntime := Codec.Leaf.runtimeType_of_encode (htype ▸ top) hv hnull hencode
    rw [← htype, ← hruntime] at hc
    rw [Converter.write_dynamic_of_build hnull hc, h]
  | option inner =>
    rw [Converter.write_nullable, hnull, if_neg Bool.false_ne_true] at h
    exact ih _ (.head _) hv inner h
  | list element =>
    rw [Converter.write_list] at h
    exact write_dynamic_of_encodeList (hwrite _ (.head _) _ element) hnull h
  | map value =>
    rw [Converter.write_map] at h
    exact write_dynamic_of_encodeMap (hwrite _ (.head _) _ value) hnull h
  | grouping key value =>
    rw [Converter.write_grouping] at h
    exact write_dynamic_of_encodeGrouping (hwrite _ (.head _) _ key)
      (hwrite _ (.tail _ (.head _)) _ value) hnull h
  | tuple nonempty items =>
    rw [Converter.write_tuple] at h
    exact write_dynamic_of_encodeTuple nonempty items hwrite h
  | record fields =>
    have hrecord := h
    rw [Converter.write_record] at h
    cases v with
    | record other values =>
      rw [Converter.encodeRecord] at h
      split_ifs at h with hsame
      -- Over one naming, a record is known by its name.
      have hother : (Ty.record other).Named names := hv.at_top
      have hr := hother.eq_of_same (.intro top rest) hsame
      rw [← hr] at hc
      rw [Converter.write_dynamic_of_build hnull hc, hrecord]
    | null => cases hnull
    | _ => cases h
  | dynamic => exact h

/-! ## Conversion to the type of a value -/

/-- `runtimeTypes` are as many as the items. -/
theorem length_runtimeTypes (items : List Value) :
    (Value.runtimeTypes items).length = items.length := by
  induction items with
  | nil => rfl
  | cons item rest ih => rw [Value.runtimeTypes, List.length_cons, ih, List.length_cons]

/-- A value that a type writes is of its kind, or null where the type has null: `sameKind` takes it
    as it is. -/
theorem sameKind_of_write (ht : t.Named names) (hv : v.Named names)
    (hc : build (defaults settings) t = .ok c) (hdynamic : t ≠ .dynamic)
    (hoption : ∀ inner, t ≠ .option inner) (h : c.write settings v = .ok d) :
    v.sameKind t = .ok v := by
  -- A value whose runtime type has the key of the type is of its kind.
  have hkind : v.runtimeType.key = t.key → v.sameKind t = .ok v := by
    intro hkey
    rw [Value.sameKind, if_pos hkey]
    split <;> rfl
  cases builds_of_build hc with
  | @leaf t codec hleaf =>
    rw [Converter.write_leaf] at h
    have htype := type_of_leaf? hleaf
    cases hnull : v.isNull with
    | true =>
      cases v with
      | null =>
        -- Of the types without parts only that of bytes has null.
        cases codec with
        | binary => rw [← htype]; rfl
        | _ => cases h
      | _ => cases hnull
    | false =>
      have hruntime := Codec.Leaf.runtimeType_of_encode (htype ▸ ht.at_top) hv hnull h
      exact hkind (congrArg Ty.key (hruntime.trans htype))
  | option _ => exact absurd rfl (hoption _)
  | list _ =>
    rw [Converter.write_list] at h
    cases v with
    | null | list _ => rfl
    | _ => cases h
  | map _ =>
    rw [Converter.write_map] at h
    cases v with
    | null | map _ => rfl
    | _ => cases h
  | grouping _ _ =>
    rw [Converter.write_grouping] at h
    cases v with
    | null | grouping _ => rfl
    | _ => cases h
  | @tuple ts cs _ items =>
    rw [Converter.write_tuple] at h
    unfold Converter.encodeTuple at h
    split at h
    · cases h
    · cases v with
      | tuple values =>
        dsimp only at h
        rw [List.length_map] at h
        split_ifs at h with hlength
        refine hkind ?_
        -- Tuples are of one kind when they have as many items.
        rw [Value.runtimeType, Ty.key, Ty.key, length_runtimeTypes, hlength, items.length_eq]
      | _ => cases h
  | record _ =>
    rw [Converter.write_record] at h
    cases v with
    | null => rfl
    | record other values =>
      rw [Converter.encodeRecord] at h
      split_ifs at h with hsame
      have hother : (Ty.record other).Named names := hv.at_top
      exact hkind (congrArg Ty.key (hother.eq_of_same ht hsame))
    | _ => cases h
  | dynamic => exact absurd rfl hdynamic

/-- `cast` leaves a value as it is on the way to a type that writes it. -/
theorem cast_of_write (ht : t.Named names) (hv : v.Named names)
    (hc : build (defaults settings) t = .ok c) (h : c.write settings v = .ok d) :
    v.cast t = .ok v := by
  induction ht generalizing c with
  | @intro t top rest ih =>
  cases t with
  | option inner =>
    rw [Value.cast]
    cases builds_of_build hc with
    | leaf hleaf => cases hleaf
    | option hinner =>
      rw [Converter.write_nullable] at h
      -- An option takes null, and else what its inner type does.
      split
      · cases v with
        | null => rfl
        | _ => contradiction
      · rename_i hnull
        rw [if_neg hnull] at h
        exact ih _ (.head _) hinner h
  | dynamic => rfl
  | int kind =>
    obtain rfl := eq_leaf_of_build rfl hc
    rw [Converter.write_leaf] at h
    cases v with
    | int k n =>
      rw [Codec.Leaf.encode] at h
      split_ifs at h with hkind
      obtain rfl := not_not.mp hkind
      exact dif_pos n.property
    | _ => cases h
  | f32 =>
    obtain rfl := eq_leaf_of_build rfl hc
    rw [Converter.write_leaf] at h
    cases v with
    | f32 x =>
      -- The number is in the narrow format already, so it comes through the wide one unchanged.
      show Except.ok (Value.f32 ((x.convert _).convert _)) = _
      rw [Binary.convert_convert]
    | _ => cases h
  | f64 =>
    obtain rfl := eq_leaf_of_build rfl hc
    rw [Converter.write_leaf] at h
    cases v with
    | f64 x => rfl
    | _ => cases h
  | zoned =>
    obtain rfl := eq_leaf_of_build rfl hc
    rw [Converter.write_leaf] at h
    cases v with
    | zoned t => rfl
    | _ => cases h
  -- The other types only ask for the kind.
  | _ => exact sameKind_of_write (.intro top rest) hv hc (by simp) (by simp) h

/-! ## Assignable types -/

/-- The type has a converter, and each value that `write` writes is converted to the type and then
    written as the same document. -/
def TakesOver (settings : Settings) (names : Naming) (target : Ty)
    (write : Value → Except Error Datum) : Prop :=
  ∃ c, build (defaults settings) target = .ok c ∧ ∀ v, v.Named names → ∀ d, write v = .ok d →
    ∃ v', v.cast target = .ok v' ∧ c.write settings v' = .ok d

theorem takesOver_self (ht : t.Named names) (hc : build (defaults settings) t = .ok c) :
    TakesOver settings names t (c.write settings) :=
  ⟨c, hc, fun v hv _ h => ⟨v, cast_of_write ht hv hc h, h⟩⟩

theorem takesOver_dynamic (ht : t.Named names) (hc : build (defaults settings) t = .ok c) :
    TakesOver settings names .dynamic (c.write settings) :=
  ⟨.dynamic, build_dynamic, fun v hv _ h => ⟨v, rfl, write_dynamic_of_write ht hv hc h⟩⟩

/-- `TakesOver` goes on to the option of a type, as long as null is written as null. -/
theorem TakesOver.option {target : Ty} {write write' : Value → Except Error Datum}
    (h : TakesOver settings names target write)
    (hnull : ∀ d, write' .null = .ok d → d = .null)
    (hwrite : ∀ v : Value, v.isNull = false → write' v = write v) :
    TakesOver settings names (.option target) write' := by
  obtain ⟨c, hc, htake⟩ := h
  -- Null is taken by the option itself, every other value by the type inside.
  refine ⟨.nullable (.option target) c, by rw [build_option, hc]; rfl, fun v hv d hd => ?_⟩
  cases hv' : v.isNull with
  | true =>
    cases v with
    | null =>
      rw [hnull d hd]
      exact ⟨.null, rfl, by rw [Converter.write_nullable]; rfl⟩
    | _ => cases hv'
  | false =>
    obtain ⟨v', hcast, hd'⟩ := htake v hv d (hwrite v hv' ▸ hd)
    refine ⟨v', by rw [Value.cast, hv', if_neg Bool.false_ne_true, hcast], ?_⟩
    rw [Converter.write_nullable]
    -- Were the converted value null, its document would be null too.
    split
    · cases v' with
      | null => rw [eq_null_of_write_null hc hd']
      | _ => contradiction
    · exact hd'

/-- `TakesOver` holds of a type that has the safe numbers of a whole number type exactly. -/
theorem takesOver_int {target : Ty} {source : IntKind} {codec : Codec.Leaf}
    (hleaf : leaf? settings target = some codec)
    (h : ∀ n : source.Number, n.val.natAbs ≤ Datum.maxSafeInteger → ∃ v',
      (Value.int source n).cast target = .ok v' ∧ codec.encode v' = .ok (Datum.ofInt n.val)) :
    TakesOver settings names target ((Converter.leaf (.int source)).write settings) := by
  refine ⟨.leaf codec, build_leaf hleaf, fun v _ d hd => ?_⟩
  rw [Converter.write_leaf] at hd
  cases v with
  | int k n =>
    rw [Codec.Leaf.encode] at hd
    split_ifs at hd with hkind hsafe
    obtain rfl := not_not.mp hkind
    -- Numbers that are not safe are not written by the source, so they need no care.
    obtain ⟨v', hcast, hwrite⟩ := h n hsafe
    exact ⟨v', hcast, by rw [Converter.write_leaf, hwrite, hd]⟩
  | _ => cases hd

/-- `TakesOver` holds of the narrow format and the whole number types of which it has all
    numbers. -/
theorem takesOver_f32 {source : IntKind} (h : Ty.f32.keepsExactly source = true) :
    TakesOver settings names .f32 ((Converter.leaf (.int source)).write settings) := by
  refine takesOver_int rfl fun n hsafe => ⟨.f32 ((Binary.ofInt n.val).convert _), rfl, ?_⟩
  have hexact : (Binary.ofInt n.val : Binary64).toRat? = some (n.val : Rat) :=
    Binary.toRat?_ofInt hsafe
  have hcovers : Ty.f32.Covers (.int source) :=
    (Ty.keepsExactly_iff_covers fun _ hint => by cases hint).mp h
  have hkeeps : Format.single.Keeps (n.val : Rat).abs :=
    (Binary.exists_toRat?_eq_iff Format.single_valid).mp (hcovers _ ⟨n, rfl⟩)
  -- The number survives the way through the narrow format, so its document is the same.
  rw [Codec.Leaf.encode, Binary.convert_convert_of_keeps hexact hkeeps, Codec.finiteNumber,
    if_pos (Binary.isFinite_of_toRat? hexact)]
  rfl

/-- `TakesOver` holds of the wide format and every whole number type, as documents keep safe numbers
    only. -/
theorem takesOver_f64 {source : IntKind} :
    TakesOver settings names .f64 ((Converter.leaf (.int source)).write settings) := by
  refine takesOver_int rfl fun n hsafe => ⟨.f64 (Binary.ofInt n.val), rfl, ?_⟩
  rw [Codec.Leaf.encode, Codec.finiteNumber,
    if_pos (Binary.isFinite_of_toRat? (Binary.toRat?_ofInt hsafe))]
  rfl

/-- `TakesOver` holds of a type and the converters of the types that it `isAssignableFrom`. -/
theorem takesOver_of_isAssignableFrom {target source : Ty} (ht : target.Named names)
    (hs : source.Named names) (h : target.isAssignableFrom source = true)
    (hc : build (defaults settings) source = .ok c) :
    TakesOver settings names target (c.write settings) := by
  -- One case for each rule of `isAssignableFrom`, in its order.
  fun_induction Ty.isAssignableFrom target source generalizing c with
  | case1 target source hsame =>
    obtain rfl := ht.eq_of_same hs hsame
    exact takesOver_self ht hc
  | case2 source => exact takesOver_dynamic hs hc
  | case3 target inner _ ih =>
    -- An option from an option: the types inside are assignable, and null is null on both sides.
    cases builds_of_build hc with
    | leaf hleaf => cases hleaf
    | @option _ c hinner =>
      have htake := ih (Ty.named_option.mp ht) (Ty.named_option.mp hs) h hinner
      refine htake.option (fun d hd => eq_null_of_write_null hc hd) fun v hv => ?_
      rw [Converter.write_nullable, hv, if_neg Bool.false_ne_true]
  | case4 target source _ _ ih =>
    have htake := ih (Ty.named_option.mp ht) hs h hc
    exact htake.option (fun d hd => eq_null_of_write_null hc hd) fun v _ => rfl
  | case5 =>
    obtain rfl := eq_leaf_of_build rfl hc
    refine ⟨_, build_leaf rfl, fun v _ d hd => ?_⟩
    rw [Converter.write_leaf] at hd
    cases v with
    | instant t =>
      -- An instant is written as at universal time, where its conversion puts it.
      exact ⟨.zoned ⟨t, .utc⟩, rfl, by rw [Converter.write_leaf, ← hd]; rfl⟩
    | _ => cases hd
  | case6 =>
    obtain rfl := eq_leaf_of_build rfl hc
    refine ⟨_, build_leaf rfl, fun v _ d hd => ?_⟩
    rw [Converter.write_leaf] at hd
    cases v with
    | f32 x =>
      rw [Codec.Leaf.encode, Codec.finiteNumber] at hd
      -- The number is finite in the narrow format, and it is the same number in the wide one.
      split_ifs at hd with hfinite
      refine ⟨.f64 (x.convert _), rfl, ?_⟩
      rw [Converter.write_leaf, Codec.Leaf.encode, Codec.finiteNumber, if_pos hfinite, hd]
    | _ => cases hd
  | case7 target source _ =>
    obtain rfl := eq_leaf_of_build rfl hc
    refine takesOver_int rfl fun n hsafe => ?_
    -- The bounds of the source are within those of the target, so the number is too.
    have hholds : target.Holds n.val := by
      simp only [IntKind.includes, Bool.and_eq_true, decide_eq_true_eq] at h
      exact ⟨h.1.trans n.property.1, n.property.2.trans h.2⟩
    refine ⟨.int target ⟨n.val, hholds⟩, dif_pos hholds, ?_⟩
    rw [Codec.Leaf.encode, if_neg (not_not.mpr rfl), if_pos hsafe]
  | case8 target source _ _ _ _ =>
    obtain rfl := eq_leaf_of_build rfl hc
    cases target with
    | f32 => exact takesOver_f32 h
    | f64 => exact takesOver_f64
    | _ => cases h
  | case9 => cases h

end Factory

/-! ## Engines -/

namespace Engine

variable {settings : Settings} {names : Naming} {cache later : ConverterCache}

/-- A value that `encode` of an engine writes as one type has a `cast` to every type that is
    assignable from it, and is then written as the same document, whatever the engine was asked for
    before and in between. -/
theorem encode_cast {target source : Ty} (ht : target.Named names) (hs : source.Named names)
    (hassign : target.isAssignableFrom source = true) {v : Value} (hv : v.Named names)
    (hcache : (ofSettings settings).Leads names .empty cache)
    (hlater : (ofSettings settings).Leads names .empty later) {d : Datum}
    (hencode : (((ofSettings settings).encode source v).run cache).1 = .ok d) :
    ∃ v', v.cast target = .ok v' ∧
      (((ofSettings settings).encode target v').run later).1 = .ok d := by
  -- Both caches answer as if nothing had been asked for, so it is enough to compare the converters.
  rw [encode_eq_write hs hv hcache] at hencode
  obtain ⟨c, hc, hwrite⟩ := exists_of_bind_eq_ok hencode
  obtain ⟨c', hc', htake⟩ := Factory.takesOver_of_isAssignableFrom ht hs hassign hc
  obtain ⟨v', hcast, hwrite'⟩ := htake v hv d hwrite
  refine ⟨v', hcast, ?_⟩
  rw [encode_eq_write ht (hv.cast hcast) hlater, hc']
  exact hwrite'

/-- Tuples are written. -/
def tupleSettings : Settings := ⟨.numeric, true, true, true⟩

/-- A code and a list of times. -/
def logType : Ty := .tuple [.char, .list .instant]

def log : Value := .tuple [.char 'a', .list [.instant .epoch, .instant .epoch]]

def logDatum : Datum :=
  .array [.string (String.singleton 'a'),
    .array [Codec.encodeTime true ⟨.epoch, .utc⟩, Codec.encodeTime true ⟨.epoch, .utc⟩]]

/-- Every record has no fields and every enumeration no variants. -/
def plainNaming : Naming := ⟨fun name => ⟨name, []⟩, fun name kind => ⟨name, kind, []⟩⟩

/-- The type of the log is over `plainNaming`, as it names nothing. -/
theorem named_logType : logType.Named plainNaming := by
  have hlist : (Ty.list .instant).Named plainNaming := Ty.named_list.mpr (.of_leaf rfl trivial)
  refine Ty.named_tuple.mpr ?_
  simp only [List.forall_mem_cons]
  exact ⟨.of_leaf rfl trivial, hlist, List.forall_mem_nil _⟩

/-- The log is over `plainNaming`. -/
theorem named_log : log.Named plainNaming := by
  refine .intro trivial ?_
  simp only [log, Value.parts, List.forall_mem_cons]
  refine ⟨.of_leaf rfl trivial, .intro trivial ?_, List.forall_mem_nil _⟩
  simp only [Value.parts, List.forall_mem_cons]
  exact ⟨.of_leaf rfl trivial, .of_leaf rfl trivial, List.forall_mem_nil _⟩

/-- An engine that writes tuples writes the log as `logDatum`. -/
theorem encode_log :
    (((ofSettings tupleSettings).encode logType log).run .empty).1 = .ok logDatum := by
  -- The converter for each of the two places of the tuple.
  have hbuild : Factory.build (Factory.defaults tupleSettings) logType =
      .ok (.tuple logType [.leaf .char, .list (.list .instant) (.leaf (.instant true))] true) := by
    rw [logType, Factory.build_tuple (List.cons_ne_nil _ _)]
    simp only [collect, Factory.build_list]
    rw [Factory.build_leaf rfl, Factory.build_leaf rfl]
    rfl
  rw [encode_eq_write named_logType named_log .refl, hbuild]
  show Converter.write tupleSettings _ log = _
  rw [Converter.write_tuple]
  -- The items are written one by one, and the instant in its own form.
  simp only [log, Converter.encodeTuple, List.map, collectZip, Converter.write_leaf,
    Converter.write_list, Converter.encodeList, collect]
  rfl

/-- The log is also written as an optional dynamic value, by an engine that has written it
    before. -/
theorem encode_cast_log :
    ((Ty.option .dynamic).Named plainNaming ∧ logType.Named plainNaming ∧
      (Ty.option .dynamic).isAssignableFrom logType = true ∧ log.Named plainNaming ∧
      (ofSettings tupleSettings).Leads plainNaming .empty .empty ∧
      (ofSettings tupleSettings).Leads plainNaming .empty
        ((ofSettings tupleSettings).serve .empty (.encode logType log)) ∧
      (((ofSettings tupleSettings).encode logType log).run .empty).1 = .ok logDatum) ∧
    ∃ v', log.cast (.option .dynamic) = .ok v' ∧
      (((ofSettings tupleSettings).encode (.option .dynamic) v').run
        ((ofSettings tupleSettings).serve .empty (.encode logType log))).1 = .ok logDatum := by
  have htarget : (Ty.option .dynamic).Named plainNaming := Ty.named_option.mpr Ty.named_dynamic
  have hassign : (Ty.option .dynamic).isAssignableFrom logType = true := by
    simp [logType, Ty.isAssignableFrom]
  -- The list was encoded once before, which fills the cache.
  have hlater : (ofSettings tupleSettings).Leads plainNaming .empty
      ((ofSettings tupleSettings).serve .empty (.encode logType log)) :=
    .single ⟨.encode _ _, ⟨named_logType, named_log⟩, rfl⟩
  exact ⟨⟨htarget, named_logType, hassign, named_log, .refl, hlater, encode_log⟩,
    encode_cast htarget named_logType hassign named_log .refl hlater encode_log⟩

end Engine

end DocQuery
