import DocQuery.Proofs.Codec.Dynamic
import DocQuery.Proofs.Codec.Leaf

/-!
# Records that nobody filled in

A field that an object has no member for holds the default of its type. Every codec writes the
default of its type, but for locators: no text without a scheme is a locator, so their fields start
with a null that their codec refuses.

## Key results

- `Factory.answers_default`: which defaults are written by the converters of their types
- `Engine.encode_decode_empty`: when a record that was read from the empty object is written
-/

namespace DocQuery

open Sequence (collect collectZip)

/-! ## Defaults -/

namespace Ty

mutual

/-- Whether the default of a type has a null in the place of a locator. -/
def lacksDefault : Ty → Bool
  | url => true
  | tuple items => anyLacksDefault items
  | _ => false

def anyLacksDefault : List Ty → Bool
  | [] => false
  | item :: rest => lacksDefault item || anyLacksDefault rest

end

/-- An enumeration has a variant. -/
def VariedNode : Ty → Prop
  | enum e => e.variants ≠ []
  | _ => True

/-- Every enumeration in a type, at any depth, has a variant. -/
abbrev Varied : Ty → Prop := Everywhere components VariedNode

end Ty

namespace Value

/-- `defaultsFor` is `defaultFor` on each type. -/
theorem defaultsFor_eq_map (items : List Ty) : defaultsFor items = items.map defaultFor := by
  induction items with
  | nil => rfl
  | cons item rest ih => rw [defaultsFor, ih, List.map_cons]

/-- `defaultFor` a type carries no other types. -/
theorem named_defaultFor {names : Naming} {t : Ty} (ht : t.Named names) :
    (defaultFor t).Named names := by
  induction ht with
  | @intro t top rest ih =>
    cases t with
    | tuple items =>
      refine .intro trivial fun part hpart => ?_
      -- Only a tuple has parts, the defaults of its items.
      rw [defaultFor, parts, defaultsFor_eq_map] at hpart
      obtain ⟨item, hitem, rfl⟩ := List.mem_map.mp hpart
      exact ih item hitem
    | enum e => exact .of_leaf rfl (.of_leaf rfl top)
    | _ => exact .of_leaf rfl trivial

/-- `defaultFor` a type equals itself. -/
theorem same_defaultFor (t : Ty) : (defaultFor t == defaultFor t) = true := by
  show (defaultFor t).same (defaultFor t) = true
  apply defaultFor.induct (fun t => (defaultFor t).same (defaultFor t) = true)
    fun items => sameItems (defaultsFor items) (defaultsFor items) = true
  case case17 =>
    intro items ih
    simpa only [defaultFor, same] using ih
  -- The zeros of the two formats are compared as numbers.
  case case5 | case6 =>
    rw [defaultFor, same]
    decide +kernel
  case case22 =>
    intro item rest ih ih'
    simp only [defaultsFor, sameItems, ih, ih', Bool.and_self]
  all_goals
    intros
    simp [defaultFor, defaultsFor, same, sameItems, sameEntries, sameGroups]

end Value

namespace RecordType

/-- Whether a field that is always written lacks a default. -/
def lacksDefault (r : RecordType) : Bool :=
  r.fields.any fun f => f.emitDefault && f.type.lacksDefault

/-- Every field holds the default of its type until it is set. -/
def Plain (r : RecordType) : Prop := ∀ f ∈ r.fields, f.default = Value.defaultFor f.type

/-- The `default` record of a `Plain` type carries no other types. -/
theorem Plain.named_default {r : RecordType} (h : r.Plain) {names : Naming}
    (hr : (Ty.record r).Named names) : (RecordValue.default r).toValue.Named names := by
  refine .intro hr fun part hpart => ?_
  obtain ⟨f, hf, rfl⟩ := List.mem_map.mp (show part ∈ r.fields.map Field.default from hpart)
  rw [h f hf]
  exact Value.named_defaultFor (hr.at_part (List.mem_map_of_mem hf))

end RecordType

/-! ## Writing -/

namespace Factory

variable {settings : Settings} {α β : Type}

/-- There is an answer, but where a locator is missing that is what the error says. -/
def Answers (lacks : Bool) (answer : Except Error α) : Prop :=
  if lacks then answer = .error (.nullNotAllowed Ty.url.text) else ∃ a, answer = .ok a

namespace Answers

variable {lacks lacks' : Bool} {answer : Except Error α}

theorem ok {a : α} : Answers false (.ok a : Except Error α) := ⟨a, rfl⟩

/-- `bind` of two steps lacks what either does. -/
theorem bind (h : Answers lacks answer) {f : α → Except Error β} (hf : ∀ a, Answers lacks' (f a)) :
    Answers (lacks || lacks') (answer >>= f) := by
  cases lacks with
  | true =>
    -- The error of the first step is the error of both.
    obtain rfl : answer = .error _ := h
    exact rfl
  | false =>
    obtain ⟨a, rfl⟩ := h
    exact hf a

/-- A result that is used lacks what its computation does. -/
theorem map (h : Answers lacks answer) {f : α → β} :
    Answers lacks (answer >>= fun a => .ok (f a)) := by
  simpa only [Bool.or_false] using h.bind fun a => ok (a := f a)

end Answers

/-- The codec of a type has a text or a number for `defaultFor` the type, but for locators. -/
theorem answers_leaf {t : Ty} (ht : t.VariedNode) {codec : Codec.Leaf}
    (hleaf : leaf? settings t = some codec) :
    Answers t.lacksDefault (codec.encode (Value.defaultFor t)) := by
  cases t with
  | f32 =>
    obtain rfl := Option.some.inj hleaf
    have hfinite : ((Binary.zero false : Binary32).convert Format.double).isFinite = true := by
      decide +kernel
    exact ⟨_, if_pos hfinite⟩
  | f64 =>
    obtain rfl := Option.some.inj hleaf
    have hfinite : (Binary.zero false : Binary64).isFinite = true := by decide +kernel
    exact ⟨_, if_pos hfinite⟩
  | int kind =>
    obtain rfl := Option.some.inj hleaf
    -- Zero is a number of every whole number type, and it is safe.
    have hzero : kind.zero.val.natAbs ≤ Datum.maxSafeInteger := Nat.zero_le _
    exact ⟨_, (if_neg (not_not.mpr rfl)).trans (if_pos hzero)⟩
  | enum e =>
    obtain rfl := Option.some.inj hleaf
    obtain ⟨variant, rest, hvariants⟩ := List.exists_cons_of_ne_nil ht
    have hdefault : Value.defaultFor (.enum e) = .enum e variant.2 := by
      rw [Value.defaultFor, hvariants]
      rfl
    -- The default is the number of the first variant, so it has a name.
    obtain ⟨name, hname, -⟩ : ∃ name, e.nameOf? variant.2 = some name ∧
        (name, variant.2) ∈ e.variants :=
      Codec.exists_nameOf? (hvariants ▸ .head _)
    rw [hdefault, Codec.Leaf.encode, if_pos rfl]
    cases settings.enumEncoding with
    | numeric => exact .ok
    | name =>
      rw [Codec.encodeEnum, hname]
      exact .ok
  | _ =>
    first
      | (obtain rfl := Option.some.inj hleaf; first | exact rfl | exact Answers.ok)
      | cases hleaf

/-- `collectZip` writes the defaults of items at their places, unless one of them lacks a
    locator. -/
theorem answers_collectZip {items : List Ty} {cs : List Converter}
    (h : List.Forall₂ (fun t c => Answers t.lacksDefault (c.write settings (.defaultFor t)))
      items cs) :
    Answers (Ty.anyLacksDefault items)
      (collectZip (cs.map (Converter.write settings)) (Value.defaultsFor items)) := by
  induction h with
  | nil => exact .ok
  | cons hitem _ ih => exact hitem.bind fun _ => ih.map

/-- The converter of a type writes `defaultFor` the type, unless that `lacksDefault`. -/
theorem answers_default (htuple : settings.tupleEncoding = true) {t : Ty} (ht : t.Varied)
    {c : Converter} (h : build (defaults settings) t = .ok c) :
    Answers t.lacksDefault (c.write settings (.defaultFor t)) := by
  induction ht generalizing c with
  | @intro t top rest ih =>
    cases builds_of_build h with
    | leaf hleaf =>
      rw [Converter.write_leaf]
      exact answers_leaf top hleaf
    -- Options, lists, maps, groupings and records default to null, which they all write.
    | option => rw [Converter.write_nullable]; exact .ok
    | list => rw [Converter.write_list]; exact .ok
    | map => rw [Converter.write_map]; exact .ok
    | grouping => rw [Converter.write_grouping]; exact .ok
    | record => rw [Converter.write_record]; exact .ok
    | dynamic => rw [Value.defaultFor, Converter.write_dynamic_null]; exact .ok
    | @tuple items cs _ hitems =>
      -- What a tuple lacks is what one of its items lacks.
      have hparts := answers_collectZip (Sequence.forall₂_imp_mem hitems fun item hitem _ hc =>
        ih item hitem hc)
      have hlength : (Value.defaultsFor items).length =
          (cs.map (Converter.write settings)).length := by
        rw [Value.defaultsFor_eq_map, List.length_map, List.length_map, hitems.length_eq]
      rw [Converter.write_tuple, htuple, Value.defaultFor, Converter.encodeTuple,
        if_neg (by decide), if_pos hlength, Ty.lacksDefault]
      exact hparts.map

/-- `encodeFields` writes the fields of a record that nobody set, but for locators. -/
theorem answers_encodeFields {fields : List Field} {cs : List Converter}
    (h : List.Forall₂ (fun f c => f.default = Value.defaultFor f.type ∧
      Answers f.type.lacksDefault (c.write settings (.defaultFor f.type))) fields cs) :
    Answers (fields.any fun f => f.emitDefault && f.type.lacksDefault)
      (Converter.encodeFields fields (cs.map (Converter.write settings))
        (fields.map Field.default)) := by
  induction h with
  | nil => exact .ok
  | @cons f c fields cs hfield _ ih =>
    obtain ⟨hdefault, hwrite⟩ := hfield
    -- A default equals itself, so it is written only where defaults are.
    have hemits : Converter.emits f f.default = f.emitDefault := by
      rw [Converter.emits, hdefault, Value.same_defaultFor, Bool.not_true, Bool.or_false]
    rw [List.map_cons, List.map_cons, Converter.encodeFields, hemits, List.any_cons]
    cases f.emitDefault with
    | false => exact ih
    | true =>
      rw [hdefault]
      exact hwrite.bind fun _ => ih.map

end Factory

/-! ## Engines -/

namespace Engine

variable {settings : Settings} {names : Naming} {cache later : ConverterCache}

/-- Whatever an engine was asked for before, `decode` reads the empty object as the `default`
    record, in which every field holds its default. -/
theorem decode_empty {r : RecordType} (hr : (Ty.record r).Named names)
    (hcache : (ofSettings settings).Leads names .empty cache) {cs : List Converter}
    (hbuild : Factory.build (Factory.defaults settings) (.record r) = .ok (.record r cs)) :
    (((ofSettings settings).decode (.record r) (.object [])).run cache).1 =
      .ok (RecordValue.default r).toValue := by
  rw [decode_eq_read hr _ hcache, hbuild]
  show Converter.read settings _ _ = _
  rw [Converter.read_record]
  rfl

/-- `encode` writes the `default` record, unless the type `lacksDefault`. -/
theorem answers_encode_default (htuple : settings.tupleEncoding = true) {r : RecordType}
    (hr : (Ty.record r).Named names) (hvaried : (Ty.record r).Varied) (hplain : r.Plain)
    (hcache : (ofSettings settings).Leads names .empty cache) {cs : List Converter}
    (hbuild : Factory.build (Factory.defaults settings) (.record r) = .ok (.record r cs)) :
    Factory.Answers r.lacksDefault
      (((ofSettings settings).encode (.record r) (RecordValue.default r).toValue).run cache).1 := by
  obtain ⟨cs, hcs, hparts⟩ := Factory.exists_of_build_record hbuild
  -- By `Plain` the default of a field is that of its type.
  have hfields := Sequence.forall₂_imp_mem (List.forall₂_map_left_iff.mp hparts) fun f hf c hc =>
    And.intro (hplain f hf)
      (Factory.answers_default htuple (hvaried.at_part (List.mem_map_of_mem hf)) hc)
  have hsame : (Ty.record r == Ty.record r) = true := Ty.same_refl _
  rw [encode_eq_write hr (hplain.named_default hr) hcache, hbuild, hcs]
  show Factory.Answers _ (Converter.write settings _ _)
  -- The record has its own type, so writing gets to the fields.
  rw [Converter.write_record, RecordValue.toValue, RecordValue.default, Converter.encodeRecord,
    if_pos hsame]
  exact (Factory.answers_encodeFields hfields).map

/-- `decode` reads the empty object as the `default` record, in which every field holds its default.
    That record is written again by an engine that writes tuples, whatever it was asked for before
    and in between, unless the type `lacksDefault`: a field that is always written is a locator or a
    tuple with a locator in it. Then the missing locator is what the error says. -/
theorem encode_decode_empty (htuple : settings.tupleEncoding = true) {r : RecordType}
    (hr : (Ty.record r).Named names) (hvaried : (Ty.record r).Varied) (hplain : r.Plain)
    (hcache : (ofSettings settings).Leads names .empty cache)
    (hlater : (ofSettings settings).Leads names .empty later) {c : Converter}
    (hresolve : (((ofSettings settings).resolve (.record r)).run cache).1 = .ok c) :
    (((ofSettings settings).decode (.record r) (.object [])).run cache).1 =
        .ok (RecordValue.default r).toValue ∧
      let written :=
        (((ofSettings settings).encode (.record r) (RecordValue.default r).toValue).run later).1
      if r.lacksDefault then written = .error (.nullNotAllowed Ty.url.text)
      else ∃ d, written = .ok d := by
  -- Over one naming the cache does not matter, so the converter is the one that the chain builds.
  have hbuild := (resolve_eq_build hr hcache).symm.trans hresolve
  obtain ⟨cs, rfl, -⟩ := Factory.exists_of_build_record hbuild
  exact ⟨decode_empty hr hcache hbuild,
    answers_encode_default htuple hr hvaried hplain hlater hbuild⟩

/-! ### Banners and pages -/

/-- Tuples are written, and enumerations by name. -/
def bannerSettings : Settings := ⟨.name, true, true, true⟩

/-- A unit of length. -/
def unitType : EnumType := ⟨"Unit", [("pixel", 1), ("inch", 2)]⟩

/-- A banner has a length in some unit, and a site that is left out while it is missing. -/
def bannerType : RecordType := ⟨"Banner", .declared,
  [.plain "length" (.tuple [.f64, .enum unitType]), ⟨"site", "site", .url, false, .null⟩]⟩

def bannerNaming : Naming := ⟨fun _ => unitType, fun _ _ => bannerType⟩

/-- The type of banners is over `bannerNaming`. -/
theorem named_bannerType : (Ty.record bannerType).Named bannerNaming := by
  have hlength : (Ty.tuple [.f64, .enum unitType]).Named bannerNaming := by
    simp only [Ty.named_tuple, List.forall_mem_cons]
    exact ⟨.of_leaf rfl trivial, .of_leaf rfl rfl, List.forall_mem_nil _⟩
  refine .intro rfl ?_
  simp only [Ty.components, bannerType, List.map, List.forall_mem_cons]
  exact ⟨hlength, .of_leaf rfl trivial, List.forall_mem_nil _⟩

/-- The type of banners is `Varied`: its one enumeration has variants. -/
theorem varied_bannerType : (Ty.record bannerType).Varied := by
  -- Of the types inside only the enumeration has to have a variant.
  have hlength : (Ty.tuple [.f64, .enum unitType]).Varied := by
    refine .intro trivial ?_
    simp only [Ty.components, List.forall_mem_cons]
    exact ⟨.of_leaf rfl trivial, .of_leaf rfl (List.cons_ne_nil _ _), List.forall_mem_nil _⟩
  refine .intro trivial ?_
  simp only [Ty.components, bannerType, List.map, List.forall_mem_cons]
  exact ⟨hlength, .of_leaf rfl trivial, List.forall_mem_nil _⟩

/-- A banner of which nothing is known is written with its length of no pixels. Its site is missing,
    but it is left out. -/
theorem encode_decode_empty_banner :
    (bannerSettings.tupleEncoding = true ∧ (Ty.record bannerType).Named bannerNaming ∧
      (Ty.record bannerType).Varied ∧ bannerType.Plain ∧
      (ofSettings bannerSettings).Leads bannerNaming .empty .empty ∧
      ∃ c, (((ofSettings bannerSettings).resolve (.record bannerType)).run .empty).1 = .ok c) ∧
    (((ofSettings bannerSettings).decode (.record bannerType) (.object [])).run .empty).1 =
        .ok (.record bannerType [.tuple [.f64 (.zero false), .enum unitType 1], .null]) ∧
      ∃ d, (((ofSettings bannerSettings).encode (.record bannerType)
        (.record bannerType [.tuple [.f64 (.zero false), .enum unitType 1], .null])).run
          .empty).1 = .ok d := by
  have hplain : bannerType.Plain := by
    simp only [RecordType.Plain, bannerType, List.forall_mem_cons]
    exact ⟨rfl, rfl, List.forall_mem_nil _⟩
  have hbuild : ∃ c, Factory.build (Factory.defaults bannerSettings) (.record bannerType) =
      .ok c := by
    rw [Factory.build_record]
    simp only [bannerType, List.map, collect, Field.plain]
    rw [Factory.build_tuple (List.cons_ne_nil _ _), Factory.build_leaf rfl]
    simp only [collect]
    rw [Factory.build_leaf rfl, Factory.build_leaf rfl]
    exact ⟨_, rfl⟩
  obtain ⟨c, hbuild⟩ := hbuild
  have hresolve := (resolve_eq_build named_bannerType .refl).trans hbuild
  obtain ⟨hread, hwritten⟩ := encode_decode_empty rfl named_bannerType varied_bannerType hplain
    .refl .refl hresolve
  -- Nothing lacks a default, as the site need not be written.
  exact ⟨⟨rfl, named_bannerType, varied_bannerType, hplain, .refl, c, hresolve⟩, hread, hwritten⟩

/-- A page that is always written with its site. -/
def pageType : RecordType := ⟨"Page", .declared, [.plain "site" .url]⟩

def pageNaming : Naming := ⟨fun _ => unitType, fun _ _ => pageType⟩

/-- Another enumeration of the name of the unit. -/
def weightType : EnumType := ⟨"Unit", [("gram", 3)]⟩

/-- A parcel with two units of one name. -/
def parcelType : RecordType :=
  ⟨"Parcel", .declared, [.plain "length" (.enum unitType), .plain "weight" (.enum weightType)]⟩

/-- What the converter of the one unit is also found for. -/
def parcelConverter : Converter :=
  .record parcelType [.leaf (.enum unitType .name), .leaf (.enum unitType .name)]

/-- What is left of asking for the unit. -/
def unitCache : ConverterCache := .add .empty (.enum unitType) (.leaf (.enum unitType .name))

/-- After the length the cache has a converter for a type of the name of the unit, so the weight
    gets it too. -/
theorem run_resolve_parcel :
    ((ofSettings bannerSettings).resolve (.record parcelType)).run .empty =
      (.ok parcelConverter, unitCache.add (.record parcelType) parcelConverter) := by
  have hunit : (Factory.resolve (Factory.defaults bannerSettings) (.enum unitType)).run .empty =
      (.ok (.leaf (.enum unitType .name)), unitCache) := by
    rw [Factory.run_resolve_of_find?_eq_none rfl]
    rfl
  -- The other unit is taken for the one that the cache has.
  have hweight : (Factory.resolve (Factory.defaults bannerSettings) (.enum weightType)).run
      unitCache = (.ok (.leaf (.enum unitType .name)), unitCache) :=
    Factory.run_resolve_of_find? rfl
  have hfirst : (Factory.firstOf (.record parcelType)
      (fun child _ => Factory.resolve (Factory.defaults bannerSettings) child)
        (Factory.defaults bannerSettings)).run .empty =
          (.ok (some parcelConverter), unitCache) := by
    apply Factory.run_firstOf_of_recipe [.primitive, .enum .name, .identifier, .time true,
      .binary, .nullable, .list, .map, .grouping, .tuple true, .record .anonymous] rfl
    · simp only [List.forall_mem_cons]
      exact ⟨rfl, rfl, rfl, rfl, rfl, rfl, rfl, rfl, rfl, rfl, rfl, List.forall_mem_nil _⟩
    · exact (Recipe.run_require_of_ok hunit _).trans (Recipe.run_require_of_ok hweight _)
  show (Factory.resolve (Factory.defaults bannerSettings) _).run _ = _
  rw [Factory.run_resolve_of_find?_eq_none rfl, Session.run_bind_ok hfirst]
  rfl

/-- A record in which every field holds the default of its type need not be written: a site is
    missing, or a unit is looked for in another one of its name. -/
theorem not_encode_decode_empty :
    (pageType.Plain ∧ (Ty.record pageType).Varied ∧
      (((ofSettings bannerSettings).resolve (.record pageType)).run .empty).1 =
        .ok (.record pageType [.leaf .url]) ∧
      (((ofSettings bannerSettings).decode (.record pageType) (.object [])).run .empty).1 =
        .ok (.record pageType [.null]) ∧
      (((ofSettings bannerSettings).encode (.record pageType) (.record pageType [.null])).run
        .empty).1 = .error (.nullNotAllowed Ty.url.text)) ∧
    parcelType.Plain ∧ (Ty.record parcelType).Varied ∧
      (((ofSettings bannerSettings).resolve (.record parcelType)).run .empty).1 =
        .ok parcelConverter ∧
      (((ofSettings bannerSettings).decode (.record parcelType) (.object [])).run .empty).1 =
        .ok (.record parcelType [.enum unitType 1, .enum weightType 3]) ∧
      (((ofSettings bannerSettings).encode (.record parcelType)
        (.record parcelType [.enum unitType 1, .enum weightType 3])).run .empty).1 =
          .error (.argument (.notDiscriminant 3 "Unit")) := by
  -- The page first. Its one field is a locator, for which null stands by default.
  have hnamed : (Ty.record pageType).Named pageNaming :=
    .intro rfl (List.forall_mem_singleton.mpr (.of_leaf rfl trivial))
  have hvaried : (Ty.record pageType).Varied :=
    .intro trivial (List.forall_mem_singleton.mpr (.of_leaf rfl trivial))
  have hplain : pageType.Plain := List.forall_mem_singleton.mpr rfl
  have hbuild : Factory.build (Factory.defaults bannerSettings) (.record pageType) =
      .ok (.record pageType [.leaf .url]) := by
    rw [Factory.build_record]
    simp only [pageType, List.map, collect, Field.plain]
    rw [Factory.build_leaf rfl]
    rfl
  refine ⟨⟨hplain, hvaried, (resolve_eq_build hnamed .refl).trans hbuild,
    decode_empty hnamed .refl hbuild,
    -- Then the parcel: the default of its second field is of the other type called "Unit".
    answers_encode_default rfl hnamed hvaried hplain .refl hbuild⟩, ?_, ?_,
    congrArg Prod.fst run_resolve_parcel, ?_, ?_⟩
  · simp only [RecordType.Plain, parcelType, List.forall_mem_cons]
    exact ⟨rfl, rfl, List.forall_mem_nil _⟩
  · refine .intro trivial ?_
    simp only [Ty.components, parcelType, List.map, List.forall_mem_cons]
    exact ⟨.of_leaf rfl (List.cons_ne_nil _ _), .of_leaf rfl (List.cons_ne_nil _ _),
      List.forall_mem_nil _⟩
  · -- Both runs go on from the resolved converter.
    rw [decode, Session.run_bind_ok run_resolve_parcel]
    rfl
  · rw [encode, Session.run_bind_ok run_resolve_parcel]
    rfl

end Engine

end DocQuery
