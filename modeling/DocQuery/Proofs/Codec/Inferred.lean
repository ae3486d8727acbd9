import DocQuery.Proofs.Codec.Canonical
import DocQuery.Proofs.Codec.Join
import DocQuery.Proofs.Schema.Conform

/-!
# Documents without objects are read by their inferred types

An item of an array is read by the common type of all items, not by its own. That a document has the
shape of a type is kept along the order of types: numbers may be read as wider ones, nulls and empty
arrays under whatever the others hold. A document without objects has the shape of its inferred
type, and what has the shape of a type is read as a value of it and written as it was.

## Key results

- `Datum.Shaped.mono`: what has the shape of a type has that of every type it widens to
- `Datum.shaped_of_inferType`: a document without objects has the shape of its inferred type
- `Datum.Shaped.exists_returns`: what has the shape of a type is read by its converter and written
  back
- `Engine.decode_inferred`: an engine reads and writes such documents by their inferred types, and
  dynamically the same way
-/

namespace DocQuery

open Sequence (collect exists_collect_eq_ok forall₂_of_collect)

namespace Datum

/-! ## Shapes -/

/-- A datum that is no `object` itself; `ObjectFree` asks it of every part. -/
def PlainNode : Datum → Prop
  | object _ => False
  | _ => True

/-- There is no `object` in the datum at any depth, so none of the readings by tag can apply to
    it. -/
abbrev ObjectFree : Datum → Prop := Everywhere parts PlainNode

/-- The document has the shape of the type. `null` is an absent option, by `absent`, or the lack of
    a list, by `noItems`. -/
inductive Shaped : Datum → Ty → Prop where
  | absent (t : Ty) : Shaped null (.option t)
  | noItems (t : Ty) : Shaped null (.list t)
  | bool (b : Bool) : Shaped (bool b) .bool
  | string (s : String) : Shaped (string s) .string
  | whole {x : Binary64} {n : Int} (safe : safeInteger? x = some n) :
    Shaped (number x) (.int .i64)
  | wide {x : Binary64} (finite : x.isFinite = true) : Shaped (number x) .f64
  | option {d : Datum} {t : Ty} (present : Shaped d t) : Shaped d (.option t)
  | list {items : List Datum} {t : Ty} (elements : ∀ item ∈ items, Shaped item t) :
    Shaped (array items) (.list t)

variable {d : Datum} {a b t : Ty}

/-- What has the shape of `a` has that of every type above it in the order of `Ty`: `whole` becomes
    `wide`, the rest keeps its constructor. -/
theorem Shaped.mono (h : d.Shaped a) (hle : a ≤ b) : d.Shaped b := by
  have hwidens : Ty.Widens a b := hle
  clear hle
  induction hwidens generalizing d with
  | refl => exact h
  | dynamic => cases h
  -- A safe whole number is finite, which is all that `wide` asks for.
  | number =>
    cases h with
    | whole safe => exact .wide (Binary.isFinite_of_toRat? (safeInteger?_eq_some_iff.mp safe).1)
  | list _ ih =>
    cases h with
    | noItems => exact .noItems _
    | list elements => exact .list fun item hitem => ih (elements item hitem)
  | option _ ih =>
    cases h with
    | absent => exact .absent _
    | option present => exact .option (ih present)
  | present _ ih => exact .option (ih h)

/-- Where `t.isNullable` and anything has the shape of `t`, `null` has it too. -/
theorem Shaped.null_of_isNullable (h : d.Shaped t) (hnullable : t.isNullable = true) :
    null.Shaped t := by
  cases h with
  | absent => exact .absent _
  | noItems => exact .noItems _
  | option => exact .absent _
  | list => exact .noItems _
  -- No other shape has a nullable type.
  | bool | string | whole | wide => cases hnullable

/-- The common type `t` of the items widens to the item type, which is `t` itself or an option of
    it. -/
theorem le_itemType (sawNull : Bool) (t : Ty) : t ≤ itemType sawNull (some t) := by
  rw [itemType]
  split
  · exact Ty.le_option_of_le le_rfl
  · exact le_rfl

/-- An array has the shape of its type where each item that is not null has that of its own type,
    since both `Shaped.mono` and the nulls only lead upwards. -/
theorem shaped_array {items : List Datum} (h : (array items).inferType = .ok t)
    (hitems : ∀ item ∈ items, item.isNull = false → ∀ s, item.inferType = .ok s → item.Shaped s) :
    (array items).Shaped t := by
  obtain ⟨htyped, joined, hjoins, rfl⟩ := inferType_array_eq_ok_iff.mp h
  -- Every item type widens to the common type of all of them.
  have hjoined : ∀ s ∈ itemTypes items, ∃ common, joined = some common ∧ s ≤ common := by
    intro s hs
    cases joined with
    | none => exact absurd hjoins (Set.nonempty_of_mem hs).ne_empty
    | some common => exact ⟨common, rfl, hjoins.2.1 hs⟩
  refine .list fun item hitem => ?_
  cases hnull : item.isNull with
  | false =>
    obtain ⟨s, hs⟩ := htyped item hitem hnull
    obtain ⟨common, rfl, hle⟩ := hjoined s ⟨item, hitem, hnull, hs⟩
    exact (hitems item hitem hnull s hs).mono (hle.trans (le_itemType _ common))
  | true =>
    -- A null stands for an absent item, or has the shape that an item elsewhere in the array has.
    obtain rfl := eq_null_of_isNull hnull
    have hany : items.any isNull = true := List.any_eq_true.mpr ⟨null, hitem, rfl⟩
    rw [hany]
    cases joined with
    | none => exact .absent _
    | some common =>
      -- Another item has the shape of the common type, so null has it where it may be absent.
      obtain ⟨s, other, hother, hotherNull, hs⟩ := hjoins.1
      have hshaped : other.Shaped common :=
        (hitems other hother hotherNull s hs).mono (hjoins.2.1 ⟨other, hother, hotherNull, hs⟩)
      rw [itemType]
      split
      · exact .absent _
      · rename_i hnullable
        exact hshaped.null_of_isNullable (by simpa using hnullable)

/-- A document in `ObjectFree` that is not `null` has the shape of the type that `inferType` gives
    it. -/
theorem shaped_of_inferType (hplain : d.ObjectFree) (hd : d.Finite) (hnull : d.isNull = false)
    (h : d.inferType = .ok t) : d.Shaped t := by
  induction hplain generalizing t with
  | @intro d top _ ih =>
    cases d with
    | null => cases hnull
    | bool b =>
      rw [inferType] at h
      obtain rfl := Except.ok.inj h
      exact .bool b
    | number x =>
      rw [inferType] at h
      obtain rfl := Except.ok.inj h
      -- Which of the two number types is inferred is what `safeInteger?` says.
      cases hx : safeInteger? x with
      | some n => exact .whole hx
      | none => exact .wide hd.at_top
    | string s =>
      rw [inferType] at h
      obtain rfl := Except.ok.inj h
      exact .string s
    | array items =>
      exact shaped_array h fun item hitem hnull s hs =>
        ih item hitem (hd.at_part hitem) hnull hs
    | object members => exact top.elim

/-! ## Canonical forms -/

/-- A document in `ObjectFree` is its own `canonical` form: it has no members to sort or to leave
    out. -/
theorem canonical_of_objectFree (hplain : d.ObjectFree) : d.canonical = d := by
  induction hplain with
  | @intro d top _ ih =>
    cases d with
    | array items =>
      have hitems : items.map canonical = items.map id := List.map_congr_left ih
      rw [canonical_array, hitems, List.map_id]
    | object members => exact top.elim
    | null | bool | number | string => simp

/-- A document in `ObjectFree` carries no tag, so no part of it is read as a time or as bytes. -/
theorem ObjectFree.timeless (hplain : d.ObjectFree) : d.Timeless := by
  refine hplain.imp fun d hd => ?_
  cases d with
  | object members => exact hd.elim
  | _ => simp [tag?, get?]

end Datum

/-! ## Reading and writing -/

/-- The converter reads `d` as `v`, which is one of the type `t`, carries no types of its own and is
    written as a document the same as `d`. -/
structure Converter.Returns (settings : Settings) (t : Ty) (c : Converter) (d : Datum) (v : Value) :
    Prop where
  read : c.read settings d = .ok v
  isNull : v.isNull = d.isNull
  named : ∀ names : Naming, v.Named names
  conforms : v.Conforms t
  written : ∃ d', c.write settings v = .ok d' ∧ d'.same d = true

variable {settings : Settings} {t : Ty} {c : Converter} {d : Datum} {v : Value}

namespace Converter.Returns

/-- The converter of a `leaf` codec returns a document that the codec decodes and encodes again. -/
theorem leaf {codec : Codec.Leaf} (hparts : v.parts = [])
    (hcarries : ∀ names : Naming, names.Carries v) (hconforms : v.Conforms t)
    (hnull : v.isNull = d.isNull) (hdecode : codec.decode d = .ok v) {d' : Datum}
    (hencode : codec.encode v = .ok d') (hsame : d'.same d = true) :
    Returns settings t (.leaf codec) d v :=
  ⟨by rw [read_leaf, hdecode], hnull, fun names => .of_leaf hparts (hcarries names), hconforms, d',
    by rw [write_leaf, hencode], hsame⟩

/-- The converter of a nullable type returns `null` where it reads and writes it as it is. -/
theorem null (hnullable : t.isNullable = true) (hread : c.read settings .null = .ok .null)
    (hwrite : c.write settings .null = .ok .null) : Returns settings t c .null .null :=
  ⟨hread, rfl, fun _ => .of_leaf rfl trivial, .null hnullable, .null, hwrite, by simp [Datum.same]⟩

/-- Items that are returned one by one are returned together by `collect`. -/
theorem exists_items {ds : List Datum} (h : ∀ d ∈ ds, ∃ v, Returns settings t c d v) :
    ∃ items ds', collect (c.read settings) ds = .ok items ∧
      (∀ item ∈ items, item.Conforms t ∧ ∀ names : Naming, item.Named names) ∧
      collect (c.write settings) items = .ok ds' ∧ Datum.sameItems ds' ds = true := by
  -- Induction on the items: the front one by `h`, the rest by `ih`.
  induction ds with
  | nil => exact ⟨[], [], rfl, List.forall_mem_nil _, rfl, rfl⟩
  | cons d ds ih =>
    obtain ⟨v, hv⟩ := h d (.head _)
    obtain ⟨d', hwrite, hsame⟩ := hv.written
    obtain ⟨items, ds', hreads, hitems, hwrites, hsames⟩ := ih fun x hx => h x (.tail _ hx)
    -- In turn: reading, the types of the values, writing, and equality with the items.
    refine ⟨v :: items, d' :: ds', ?_, ?_, ?_, ?_⟩
    · rw [collect, hv.read, hreads]
      rfl
    · rw [List.forall_mem_cons]
      exact ⟨⟨hv.conforms, hv.named⟩, hitems⟩
    · rw [collect, hwrite, hwrites]
      rfl
    · rw [Datum.sameItems, hsame, hsames]
      rfl

/-- A safe whole number is returned by the converter of `i64`, the kind that `inferType` picks for
    it. -/
theorem exists_whole {x : Binary64} {n : Int} (safe : Datum.safeInteger? x = some n) :
    ∃ v, Returns settings (.int .i64) (.leaf (.int .i64)) (.number x) v := by
  -- Safe numbers lie within the bounds of `i64`, so neither reading nor writing refuses this one.
  have hsafe := Datum.natAbs_le_of_safeInteger? safe
  have hbounds : IntKind.i64.Holds n := Codec.holds_of_natAbs_le hsafe
  have hdecode : Codec.Leaf.decode (.int .i64) (.number x) = .ok (.int .i64 ⟨n, hbounds⟩) := by
    rw [Codec.Leaf.decode, Codec.narrow, Codec.narrowTo_of_safeInteger? hbounds safe]
    rfl
  have hencode : Codec.Leaf.encode (.int .i64) (.int .i64 ⟨n, hbounds⟩) =
      .ok (Datum.ofInt n) := by
    rw [Codec.Leaf.encode, if_neg (not_not.mpr rfl), if_pos hsafe]
  exact ⟨.int .i64 ⟨n, hbounds⟩, .leaf rfl (fun _ => trivial) (.int _ _) rfl hdecode hencode
    (by rw [Datum.ofInt, Datum.same, Datum.safeInteger?_beq safe])⟩

/-- A finite number is returned by the converter of `f64`. -/
theorem wide {x : Binary64} (finite : x.isFinite = true) :
    Returns settings .f64 (.leaf .f64) (.number x) (.f64 x) := by
  have hencode : Codec.Leaf.encode .f64 (.f64 x) = .ok (.number x) := by
    rw [Codec.Leaf.encode, Codec.finiteNumber, if_pos finite]
  exact .leaf rfl (fun _ => trivial) (.f64 x) rfl rfl hencode
    (by rw [Datum.same, Binary.beq_self_of_isFinite finite])

/-- What is not null goes through a `nullable` converter as through the one inside. -/
theorem nullable (h : Returns settings t c d v) (hnull : d.isNull = false) (type : Ty) :
    Returns settings (.option t) (.nullable type c) d v := by
  have hvalue : v.isNull = false := h.isNull.trans hnull
  refine ⟨?_, h.isNull, h.named, .option h.conforms, ?_⟩
  · rw [read_nullable, if_neg (by simp [hnull]), h.read]
  · rw [write_nullable, if_neg (by simp [hvalue])]
    exact h.written

/-- The items of an array are returned by the converter of their common type, and the array with
    them. -/
theorem exists_list {items : List Datum} (h : ∀ d ∈ items, ∃ v, Returns settings t c d v)
    (type : Ty) : ∃ v, Returns settings (.list t) (.list type c) (.array items) v := by
  obtain ⟨values, ds', hreads, hvalues, hwrites, hsame⟩ := exists_items h
  -- In turn the fields of `Returns`; an array is never null, so the second one is void.
  refine ⟨.list values, ?_, rfl, fun names => ?_, ?_, .array ds', ?_, ?_⟩
  · rw [read_list, decodeList, hreads]
    rfl
  · exact .intro trivial fun item hitem => (hvalues item hitem).2 names
  · exact .list fun item hitem => (hvalues item hitem).1
  · rw [write_list, encodeList, hwrites]
    rfl
  · rw [Datum.same, hsame]

end Converter.Returns

namespace Datum

open Converter (Returns)

/-- What has the shape of `t` is read by the converter that is built for `t` and written back. -/
theorem Shaped.exists_returns (h : d.Shaped t)
    (hc : Factory.build (Factory.defaults settings) t = .ok c) :
    ∃ v, Returns settings t c d v := by
  induction h generalizing c with
  | absent t =>
    cases Factory.builds_of_build hc with
    -- Options are built from their inner types; no leaf codec claims one.
    | leaf hleaf => cases hleaf
    | option => exact ⟨.null, .null rfl (Converter.read_nullable ..) (Converter.write_nullable ..)⟩
  | noItems t =>
    cases Factory.builds_of_build hc with
    | leaf hleaf => cases hleaf
    | list => exact ⟨.null, .null rfl (Converter.read_list ..) (Converter.write_list ..)⟩
  | bool b =>
    obtain rfl := Factory.eq_leaf_of_build rfl hc
    exact ⟨.bool b, .leaf rfl (fun _ => trivial) (.bool b) rfl rfl rfl (by simp [same])⟩
  | string s =>
    obtain rfl := Factory.eq_leaf_of_build rfl hc
    exact ⟨.string s, .leaf rfl (fun _ => trivial) (.string s) rfl rfl rfl (by simp [same])⟩
  | whole safe =>
    obtain rfl := Factory.eq_leaf_of_build rfl hc
    exact Returns.exists_whole safe
  | wide finite =>
    obtain rfl := Factory.eq_leaf_of_build rfl hc
    exact ⟨_, .wide finite⟩
  | @option d t present ih =>
    cases Factory.builds_of_build hc with
    | leaf hleaf => cases hleaf
    | option hinner =>
      cases hnull : d.isNull with
      -- A null in an option is absent even where the inner type has room for it.
      | true =>
        obtain rfl := eq_null_of_isNull hnull
        exact ⟨.null, .null rfl (Converter.read_nullable ..) (Converter.write_nullable ..)⟩
      | false =>
        obtain ⟨v, hv⟩ := ih hinner
        exact ⟨v, hv.nullable hnull _⟩
  | list elements ih =>
    cases Factory.builds_of_build hc with
    | leaf hleaf => cases hleaf
    | list helement => exact Returns.exists_list (fun item hitem => ih item hitem helement) _

end Datum

namespace Factory

open Converter (Returns)

/-- There is a converter for every type in `Ty.Inferable`, which has neither records nor tuples. -/
theorem exists_build_of_inferable (ht : t.Inferable) :
    ∃ c, build (defaults settings) t = .ok c := by
  -- Induction on `t`. `ih` has the converters of its components.
  induction ht with
  | @intro t top _ ih =>
    cases t with
    | option inner =>
      obtain ⟨c, hc⟩ := ih inner (.head _)
      exact ⟨_, by rw [build_option, hc]; rfl⟩
    | list element =>
      obtain ⟨c, hc⟩ := ih element (.head _)
      exact ⟨_, by rw [build_list, hc]; rfl⟩
    | map value =>
      obtain ⟨c, hc⟩ := ih value (.head _)
      exact ⟨_, by rw [build_map, hc]; rfl⟩
    | grouping key value =>
      obtain ⟨k, hk⟩ := ih key (.head _)
      obtain ⟨c, hc⟩ := ih value (.tail _ (.head _))
      exact ⟨_, by rw [build_grouping, hk, hc]; rfl⟩
    -- No tuple and no record is inferable, and the other types are leaves.
    | dynamic => exact ⟨_, build_dynamic⟩
    | tuple | record => exact top.elim
    | _ => exact ⟨_, build_leaf rfl⟩

/-- A document in `ObjectFree` is read and written back by the converter of its inferred type, and
    `Converter.dynamic` reads it as the same value. -/
theorem exists_returns_of_inferType (hplain : d.ObjectFree) (hd : d.Finite)
    (h : d.inferType = .ok t) :
    ∃ c, build (defaults settings) t = .ok c ∧ ∃ v, Returns settings t c d v ∧
      Converter.dynamic.read settings d = .ok v := by
  cases hnull : d.isNull with
  -- Only null has the inferred type `dynamic`, which the converter of that type reads as it stands.
  | true =>
    obtain rfl := Datum.eq_null_of_isNull hnull
    rw [Datum.inferType] at h
    obtain rfl := Except.ok.inj h
    exact ⟨.dynamic, build_dynamic, .null,
      .null rfl Converter.read_dynamic_null Converter.write_dynamic_null,
      Converter.read_dynamic_null⟩
  | false =>
    obtain ⟨c, hc⟩ : ∃ c, build (defaults settings) t = .ok c :=
      exists_build_of_inferable (Datum.inferable_of_inferType h)
    obtain ⟨v, hv⟩ := (Datum.shaped_of_inferType hplain hd hnull h).exists_returns hc
    refine ⟨c, hc, v, hv, ?_⟩
    -- Any other document has a type of its own, and dynamic reading hands it to that converter.
    have hdynamic : (t == .dynamic) = false := by
      rw [Bool.eq_false_iff]
      intro hsame
      obtain rfl := Ty.eq_of_same_undeclared Ty.named_dynamic hsame
      rw [Datum.eq_null_of_inferType h] at hnull
      cases hnull
    rw [Converter.read_dynamic, h]
    show (if t == .dynamic then _ else _) = _
    rw [hdynamic, if_neg Bool.false_ne_true, hc]
    exact hv.read

end Factory

/-! ## Engines -/

namespace Engine

variable {cache : ConverterCache}

/-- An engine reads a document with finite numbers and without objects dynamically if, and only if,
    the document has an inferred type. Then it reads the document as that type too, as the same
    value, which is one of the type, and writes this back as the document under the type and
    dynamically, whatever it was asked for before and meanwhile. -/
theorem decode_inferred (hd : d.Finite) (hplain : d.ObjectFree)
    (hcache : (ofSettings settings).Reaches .empty cache) :
    ((∃ v, (((ofSettings settings).decode .dynamic d).run cache).1 = .ok v) ↔
      ∃ t, d.inferType = .ok t) ∧
    ∀ t, d.inferType = .ok t → ∃ v, v.Conforms t ∧
      (((ofSettings settings).decode t d).run cache).1 = .ok v ∧
      (((ofSettings settings).decode .dynamic d).run cache).1 = .ok v ∧
      ∀ later, (ofSettings settings).Reaches .empty later →
        (∃ d', (((ofSettings settings).encode t v).run later).1 = .ok d' ∧ d'.same d = true) ∧
        ∃ d', (((ofSettings settings).encode .dynamic v).run later).1 = .ok d' ∧
          d'.same d = true := by
  have hdynamic : (((ofSettings settings).decode .dynamic d).run cache).1 =
      Converter.dynamic.read settings d := by
    rw [hcache.decode_eq_read Ty.named_dynamic d, Factory.build_dynamic]
    rfl
  rw [hdynamic]
  refine ⟨⟨?readable, ?inferred⟩, fun t ht => ?_⟩
  case readable =>
    rintro ⟨v, hv⟩
    rw [Converter.read_dynamic] at hv
    obtain ⟨t, ht, -⟩ := Sequence.exists_of_bind_eq_ok hv
    exact ⟨t, ht⟩
  case inferred =>
    rintro ⟨t, ht⟩
    -- An inferred type always has a converter, and reading by it succeeds.
    obtain ⟨_, _, v, _, hread⟩ := Factory.exists_returns_of_inferType hplain hd ht
    exact ⟨v, hread⟩
  · obtain ⟨c, hc, v, hv, hread⟩ := Factory.exists_returns_of_inferType hplain hd ht
    refine ⟨v, hv.conforms, ?_, hread, fun later hlater => ⟨?_, ?_⟩⟩
    · rw [hcache.decode_eq_read (Datum.named_of_inferType ht) d, hc]
      exact hv.read
    · obtain ⟨d', hwrite, hsame⟩ := hv.written
      refine ⟨d', ?_, hsame⟩
      rw [hlater.encode_eq_write (Datum.named_of_inferType ht) (hv.named _), hc]
      exact hwrite
    · -- Without objects the canonical form is the document itself.
      -- The dynamic writer goes by the value, so stability is what says that it writes the
      -- document.
      have hinferable : Ty.dynamic.Inferable := .of_leaf rfl trivial
      obtain ⟨d', hd'⟩ := Factory.isStable_of_read hinferable Factory.build_dynamic hd
        hplain.timeless hread
      refine ⟨d', ?_, Datum.canonical_of_objectFree hplain ▸ hd'.canonical⟩
      rw [hlater.encode_eq_write Ty.named_dynamic (hv.named _), Factory.build_dynamic]
      exact hd'.written

/-- Nulls, a whole number and a fraction in arrays of their own. -/
def sparse : Datum :=
  .array [.array [.null], .array [.number 1], .null, .array [.number (.ofRat (1 / 2))]]

/-- The numbers of `sparse` are finite. -/
theorem finite_sparse : sparse.Finite := by
  -- The two numbers in the document.
  have hone : (1 : Binary64).isFinite = true := by decide +kernel
  have hhalf : (Binary.ofRat (1 / 2) : Binary64).isFinite = true := by decide +kernel
  refine .intro trivial ?_
  simp only [sparse, Datum.parts, List.forall_mem_cons]
  -- Three of the items are arrays of one item each, and one is null.
  refine ⟨.intro trivial ?_, .intro trivial ?_, .of_leaf rfl trivial, .intro trivial ?_,
    List.forall_mem_nil _⟩
  all_goals simp only [Datum.parts, List.forall_mem_singleton]
  · exact .of_leaf rfl trivial
  · exact .of_leaf rfl hone
  · exact .of_leaf rfl hhalf

/-- There are only arrays, numbers and nulls in `sparse`. -/
theorem objectFree_sparse : sparse.ObjectFree := by
  refine .intro trivial ?_
  simp only [sparse, Datum.parts, List.forall_mem_cons]
  refine ⟨.intro trivial ?_, .intro trivial ?_, .of_leaf rfl trivial, .intro trivial ?_,
    List.forall_mem_nil _⟩
  all_goals
    simp only [Datum.parts, List.forall_mem_singleton]
    exact .of_leaf rfl trivial

/-- The null makes the items of `sparse` options, and the fraction widens the whole number to
    `f64`. -/
theorem inferType_sparse : sparse.inferType = .ok (.list (.list (.option .f64))) := by
  have hnull : (Ty.list (.option .dynamic)).unify (.list (.int .i64)) =
      some (.list (.option (.int .i64))) := by
    simp [Ty.unify, BEq.beq, Ty.same]
  have hwidened : (Ty.list (.option (.int .i64))).unify (.list .f64) =
      some (.list (.option .f64)) := by
    simp [Ty.unify, BEq.beq, Ty.same]
  have hnulls : (Datum.array [.null]).inferType = .ok (.list (.option .dynamic)) := by
    simp [Datum.inferType, Datum.inferItems, Datum.isNull, Datum.itemType]
  have hwhole : (Datum.array [.number 1]).inferType = .ok (.list (.int .i64)) := by
    rw [Datum.inferType]
    simp [Datum.inferItems, Datum.inferType_one, Datum.isNull, Datum.itemType, bind, Except.bind]
  have hfraction : (Datum.array [.number (.ofRat (1 / 2))]).inferType = .ok (.list .f64) := by
    rw [Datum.inferType]
    -- The proof goes on for any number with the inferred type of a half, so no rational is
    -- computed.
    have hhalf := Datum.inferType_half
    generalize (Binary.ofRat (1 / 2) : Binary64) = half at hhalf ⊢
    simp [Datum.inferItems, hhalf, Datum.isNull, Datum.itemType, bind, Except.bind]
  rw [sparse]
  generalize (Binary.ofRat (1 / 2) : Binary64) = half at hfraction ⊢
  rw [Datum.inferType]
  simp [Datum.inferItems, hnulls, hwhole, hfraction, hnull, hwidened, Datum.isNull,
    Datum.itemType, Ty.isNullable, bind, Except.bind]

/-- The document `sparse` is read as lists of optional numbers and written back. -/
theorem decode_inferred_sparse :
    (sparse.Finite ∧ sparse.ObjectFree ∧ (ofSettings {}).Reaches .empty .empty ∧
      sparse.inferType = .ok (.list (.list (.option .f64)))) ∧
    ∃ v, v.Conforms (.list (.list (.option .f64))) ∧
      (((ofSettings {}).decode (.list (.list (.option .f64))) sparse).run .empty).1 = .ok v ∧
      (((ofSettings {}).decode .dynamic sparse).run .empty).1 = .ok v ∧
      ∀ later, (ofSettings {}).Reaches .empty later →
        (∃ d', (((ofSettings {}).encode (.list (.list (.option .f64))) v).run later).1 = .ok d' ∧
          d'.same sparse = true) ∧
        ∃ d', (((ofSettings {}).encode .dynamic v).run later).1 = .ok d' ∧
          d'.same sparse = true :=
  ⟨⟨finite_sparse, objectFree_sparse, .refl, inferType_sparse⟩,
    (decode_inferred finite_sparse objectFree_sparse .refl).2 _ inferType_sparse⟩

end Engine

end DocQuery
