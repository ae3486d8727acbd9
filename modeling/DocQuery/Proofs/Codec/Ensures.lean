import DocQuery.Proofs.Codec.Finite
import DocQuery.Proofs.Codec.Infer
import DocQuery.Proofs.Codec.Lockstep
import DocQuery.Proofs.Codec.Session

/-!
# What sessions ensure

A session ensures a property of its result when, from every cache with an invariant, it keeps the
invariant, also where it fails, and a result that it ends with has the property. Nothing is said of
which result that is. Where finding converters ensures that they are standard, standard converters
ensure that the documents of representable values have finite numbers.

## Key results

- `Session.Ensures.bind`, `Session.Ensures.tryCatch`: composition, also after an error
- `Converter.decode_ensures`, `Converter.encode_keeps`: reading and writing keep what finding
  converters keeps
- `Converter.encode_ensures`: writing writes finite numbers
-/

namespace DocQuery

namespace Session

variable {α β : Type} {inv : ConverterCache → Prop}

/-- From every cache with the invariant the session keeps the invariant, and its result has the
    property. -/
def Ensures (inv : ConverterCache → Prop) (s : Session α) (holds : α → Prop) : Prop :=
  ∀ cache, inv cache → inv (s.run cache).2 ∧ ∀ a, (s.run cache).1 = .ok a → holds a

namespace Ensures

variable {holds : α → Prop} {holds' : β → Prop}

theorem pure {a : α} (h : holds a) : Ensures inv (Pure.pure a) holds :=
  fun _ hinv => ⟨hinv, fun _ ha => Except.ok.inj ha ▸ h⟩

theorem throw (e : Error) : Ensures inv (MonadExcept.throw e : Session α) holds :=
  fun _ hinv => ⟨hinv, fun _ ha => by cases ha⟩

/-- `ofExcept` of a computation that needs no cache ensures what holds of its results. -/
theorem ofExcept {p : Except Error α} (h : ∀ a, p = .ok a → holds a) :
    Ensures inv (MonadExcept.ofExcept p) holds := by
  cases p with
  | ok a => exact .pure (h a rfl)
  | error e => exact .throw e

/-- `bind` ensures what the second session does, which starts from what the first one ended with. -/
theorem bind {s : Session α} {f : α → Session β} (h : Ensures inv s holds)
    (hf : ∀ a, holds a → Ensures inv (f a) holds') : Ensures inv (s >>= f) holds' := by
  intro cache hinv
  obtain ⟨hmiddle, hresult⟩ := h cache hinv
  rcases hrun : s.run cache with ⟨e | a, middle⟩
  · rw [run_bind_error hrun]
    -- After an error the cache still has the invariant, and there is no result to speak of.
    rw [hrun] at hmiddle
    exact ⟨hmiddle, fun _ hb => by cases hb⟩
  · rw [run_bind_ok hrun]
    rw [hrun] at hmiddle hresult
    exact hf a (hresult a rfl) middle hmiddle

/-- `tryCatch` ensures what both do. The handler starts from the cache that the failed session
    left. -/
theorem tryCatch {s : Session α} {f : Error → Session α} (h : Ensures inv s holds)
    (hf : ∀ e, Ensures inv (f e) holds) : Ensures inv (tryCatch s f) holds := by
  intro cache hinv
  obtain ⟨hmiddle, hresult⟩ := h cache hinv
  -- `f` is run from the cache that the failed session leaves.
  rcases hrun : s.run cache with ⟨e | a, middle⟩
  · rw [run_tryCatch_error hrun]
    rw [hrun] at hmiddle
    exact hf e middle hmiddle
  · rw [run_tryCatch_ok hrun]
    rw [hrun] at hmiddle hresult
    exact ⟨hmiddle, hresult⟩

theorem imp {s : Session α} {also : α → Prop} (h : Ensures inv s holds)
    (himp : ∀ a, holds a → also a) : Ensures inv s also :=
  fun cache hinv => ⟨(h cache hinv).1, fun a ha => himp a ((h cache hinv).2 a ha)⟩

/-- `collect` ensures that every result has the property of an item. -/
theorem collect {step : α → Session β} {written : α → β → Prop} {items : List α}
    (h : ∀ a ∈ items, Ensures inv (step a) (written a)) :
    Ensures inv (Sequence.collect step items) fun results =>
      ∀ b ∈ results, ∃ a ∈ items, written a b := by
  induction items with
  | nil => exact .pure (List.forall_mem_nil _)
  | cons item rest ih =>
    rw [Sequence.collect]
    refine (h item (.head _)).bind fun result hresult => ?_
    refine (ih fun a ha => h a (.tail _ ha)).bind fun results hresults => .pure ?_
    rw [List.forall_mem_cons]
    -- The first result is of the first item, the others by induction.
    refine ⟨⟨item, .head _, hresult⟩, fun b hb => ?_⟩
    obtain ⟨a, ha, hwritten⟩ := hresults b hb
    exact ⟨a, .tail _ ha, hwritten⟩

/-- `collectZip` ensures that every result has the property of an item, whichever step it is taken
    by. -/
theorem collectZip {steps : List (α → Session β)} {written : α → β → Prop}
    (h : ∀ step ∈ steps, ∀ a, Ensures inv (step a) (written a)) (items : List α) :
    Ensures inv (Sequence.collectZip steps items) fun results =>
      ∀ b ∈ results, ∃ a ∈ items, written a b := by
  -- Induction on the steps, which stop where the items end.
  induction steps generalizing items with
  | nil => exact .pure (List.forall_mem_nil _)
  | cons step steps ih =>
    cases items with
    | nil => exact .pure (List.forall_mem_nil _)
    | cons item rest =>
      rw [Sequence.collectZip]
      refine (h step (.head _) item).bind fun result hresult => ?_
      refine (ih (fun s hs => h s (.tail _ hs)) rest).bind fun results hresults => .pure ?_
      -- A result is that of the front item or of one further on.
      rw [List.forall_mem_cons]
      refine ⟨⟨item, .head _, hresult⟩, fun b hb => ?_⟩
      obtain ⟨a, ha, hwritten⟩ := hresults b hb
      exact ⟨a, .tail _ ha, hwritten⟩

end Ensures

/-- The session keeps the invariant. -/
abbrev Keeps (inv : ConverterCache → Prop) (s : Session α) : Prop := Ensures inv s fun _ => True

/-- What ensures anything keeps the invariant. -/
theorem Ensures.keeps {s : Session α} {holds : α → Prop} (h : Ensures inv s holds) : Keeps inv s :=
  h.imp fun _ _ => trivial

end Session

/-- A session that keeps the invariant, whatever it is compared with. -/
def Lockstep.keeping (inv : ConverterCache → Prop) : Lockstep Session Session where
  Related := fun s _ => Session.Keeps inv s
  pure := fun _ => .pure trivial
  throw := fun e => .throw e
  bind := fun hs hf => hs.bind fun a _ => hf a

/-! ## Standard converters -/

namespace Converter

/-- The converters that a converter is built from directly. -/
def parts : Converter → List Converter
  | nullable _ inner => [inner]
  | list _ element => [element]
  | map _ value => [value]
  | grouping _ key value => [key, value]
  | tuple _ items _ => items
  | record _ fields => fields
  | leaf _ | dynamic | custom _ _ _ => []

/-- The converter was not supplied from outside. -/
def StandardNode : Converter → Prop
  | custom _ _ _ => False
  | _ => True

/-- No part of the converter was supplied from outside. -/
abbrev Standard : Converter → Prop := Everywhere parts StandardNode

open Session (Ensures Keeps)

variable {inv : ConverterCache → Prop}

/-! ## Reading -/

section Decode

variable {step : Datum → Session Value} {resolve : Ty → Session Converter}

/-- `decodeWith` keeps what reading of dynamic documents keeps. -/
theorem decodeWith_ensures (h : ∀ d, Keeps inv (step d)) (c : Converter) (d : Datum) :
    Keeps inv (decodeWith step c d) := by
  have hsteps : ∀ d, (Lockstep.keeping inv).Related (step d) (step d) := h
  exact decodeWith_related_of_steps hsteps c d

/-- `decodeDynamic` keeps what finding the converters of inferred types keeps, however many steps it
    may take. -/
theorem decodeDynamic_ensures (h : ∀ t, t.Inferable → Keeps inv (resolve t)) (steps : Nat)
    (d : Datum) : Keeps inv (decodeDynamic resolve steps d) := by
  induction steps generalizing d with
  | zero => exact .throw _
  | succ steps ih =>
    -- Only inferable types are asked for, and `h` is about those.
    have htype : Ensures inv (MonadExcept.ofExcept d.inferType) Ty.Inferable :=
      .ofExcept fun _ ht => Datum.inferable_of_inferType ht
    rw [decodeDynamic]
    refine htype.bind fun type hinferable => ?_
    -- The dynamic type itself is that of null.
    split
    · exact .pure trivial
    · exact (h type hinferable).bind fun c _ => decodeWith_ensures ih c d

/-- `decode` keeps what finding the converters of inferred types keeps. -/
theorem decode_ensures (h : ∀ t, t.Inferable → Keeps inv (resolve t)) (c : Converter)
    (d : Datum) : Keeps inv (c.decode resolve d) :=
  decodeWith_ensures (decodeDynamic_ensures h _) c d

end Decode

/-! ## Writing -/

section Keep

variable {holds : Value → Prop} {step : Value → Session Datum} {resolve : Ty → Session Converter}

/-- `encodeWith` keeps what writing of dynamic values keeps. -/
theorem encodeWith_keeps (h : ∀ v, Everywhere Value.parts holds v → Keeps inv (step v))
    (c : Converter) {v : Value} (hv : Everywhere Value.parts holds v) :
    Keeps inv (encodeWith step c v) := by
  have hsteps : ∀ v, Everywhere Value.parts holds v →
      (Lockstep.keeping inv).Related (step v) (step v) := h
  exact encodeWith_related_of_steps hsteps c hv

/-- `encodeDynamic` keeps what finding the converters of runtime types keeps, however many steps it
    may take. -/
theorem encodeDynamic_keeps
    (h : ∀ v, Everywhere Value.parts holds v → Keeps inv (resolve v.runtimeType)) (steps : Nat)
    (v : Value) (hv : Everywhere Value.parts holds v) :
    Keeps inv (encodeDynamic resolve steps v) := by
  induction steps generalizing v with
  | zero => exact .throw _
  | succ steps ih =>
    rw [encodeDynamic]
    -- Null asks for no converter.
    split
    · exact .pure trivial
    · exact (h v hv).bind fun c _ => encodeWith_keeps ih c hv

/-- `encode` keeps what finding the converters of runtime types keeps. -/
theorem encode_keeps
    (h : ∀ v, Everywhere Value.parts holds v → Keeps inv (resolve v.runtimeType)) (c : Converter)
    {v : Value} (hv : Everywhere Value.parts holds v) : Keeps inv (c.encode resolve v) :=
  encodeWith_keeps (encodeDynamic_keeps h _) c hv

end Keep

section Encode

/-- The document has finite numbers if the value has representable variants. -/
def WritesFinite (v : Value) (d : Datum) : Prop := v.Representable → d.Finite

variable {first second : Value → Session Datum} {writers : List (Value → Session Datum)}

/-- `encodeList` ensures `WritesFinite` where the items do. -/
theorem encodeList_ensures (h : ∀ v, Ensures inv (first v) (WritesFinite v)) (type : Ty)
    (v : Value) : Ensures inv (encodeList type first v) (WritesFinite v) := by
  cases v with
  | null => exact .pure fun _ => .of_leaf rfl trivial
  | list items =>
    -- A datum of the array is written for an item of the list.
    refine (Ensures.collect fun v _ => h v).bind fun ds hds => .pure fun hv => ?_
    refine .intro trivial fun d hd => ?_
    obtain ⟨item, hitem, hfinite⟩ := hds d hd
    exact hfinite (hv.at_part hitem)
  | _ => exact .throw _

/-- `encodeMap` ensures `WritesFinite` where the values do. -/
theorem encodeMap_ensures (h : ∀ v, Ensures inv (first v) (WritesFinite v)) (type : Ty)
    (v : Value) : Ensures inv (encodeMap type first v) (WritesFinite v) := by
  cases v with
  | null => exact .pure fun _ => .of_leaf rfl trivial
  | map entries =>
    -- A key is no number, so only the value of an entry matters.
    have hentry : ∀ entry ∈ entries, Ensures inv (encodeEntry first entry) fun member =>
        WritesFinite entry.2 member.2 :=
      fun entry _ => (h entry.2).bind fun d hd => .pure hd
    refine (Ensures.collect hentry).bind fun members hmembers => .pure fun hv => ?_
    refine .intro trivial fun d hd => ?_
    obtain ⟨member, hmember, rfl⟩ := List.mem_map.mp hd
    obtain ⟨entry, hentry, hfinite⟩ := hmembers member hmember
    exact hfinite (hv.at_part (List.mem_map_of_mem hentry))
  | _ => exact .throw _

/-- `encodeGrouping` ensures `WritesFinite` where keys and values do. -/
theorem encodeGrouping_ensures (h : ∀ v, Ensures inv (first v) (WritesFinite v))
    (h' : ∀ v, Ensures inv (second v) (WritesFinite v)) (type : Ty) (v : Value) :
    Ensures inv (encodeGrouping type first second v) (WritesFinite v) := by
  cases v with
  | null => exact .pure fun _ => .of_leaf rfl trivial
  | grouping groups =>
    have hgroup : ∀ group ∈ groups, Ensures inv (encodeGroup first second group) fun d =>
        group.1.Representable → group.2.Representable → d.Finite := by
      intro group _
      refine (h group.1).bind fun k hk => (h' group.2).bind fun w hw => .pure fun hkey hvalue => ?_
      refine .intro trivial ?_
      simp only [Datum.parts, List.forall_mem_cons]
      exact ⟨hk hkey, hw hvalue, List.forall_mem_nil _⟩
    refine (Ensures.collect hgroup).bind fun ds hds => .pure fun hv => ?_
    -- The object holds a tag and an array of pairs.
    refine .intro trivial ?_
    simp only [Datum.parts, List.map, List.forall_mem_cons]
    refine ⟨.of_leaf rfl trivial, .intro trivial fun d hd => ?_, List.forall_mem_nil _⟩
    obtain ⟨group, hgroup, hfinite⟩ := hds d hd
    have hparts : ∀ part ∈ [group.1, group.2], part ∈ (Value.grouping groups).parts :=
      fun part hpart => List.mem_flatMap.mpr ⟨group, hgroup, hpart⟩
    exact hfinite (hv.at_part (hparts _ (.head _))) (hv.at_part (hparts _ (.tail _ (.head _))))
  | _ => exact .throw _

/-- `encodeTuple` ensures `WritesFinite` where the items do. -/
theorem encodeTuple_ensures
    (h : ∀ writer ∈ writers, ∀ v, Ensures inv (writer v) (WritesFinite v)) (type : Ty)
    (encodes : Bool) (v : Value) :
    Ensures inv (encodeTuple type writers encodes v) (WritesFinite v) := by
  unfold encodeTuple
  split
  · -- An engine that does not write tuples fails before it looks at the items.
    exact .throw _
  · cases v with
    | tuple values =>
      dsimp only
      split
      · refine (Ensures.collectZip h values).bind fun ds hds => .pure fun hv => ?_
        refine .intro trivial fun d hd => ?_
        obtain ⟨item, hitem, hfinite⟩ := hds d hd
        exact hfinite (hv.at_part hitem)
      · exact .throw _
    | _ => exact .throw _

/-- `encodeFields` ensures that every member is the document of one of the values, and finite if
    that is representable. -/
theorem encodeFields_ensures
    (h : ∀ writer ∈ writers, ∀ v, Ensures inv (writer v) (WritesFinite v))
    (declared : List Field) (values : List Value) :
    Ensures inv (encodeFields declared writers values) fun members =>
      ∀ m ∈ members, ∃ v ∈ values, WritesFinite v m.2 := by
  induction declared generalizing writers values with
  | nil => exact .pure (List.forall_mem_nil _)
  | cons field declared ih =>
    cases writers with
    | nil => exact .pure (List.forall_mem_nil _)
    | cons writer writers =>
      cases values with
      | nil => exact .pure (List.forall_mem_nil _)
      | cons value values =>
        have hrest : Ensures inv (encodeFields declared writers values) fun members =>
            ∀ m ∈ members, ∃ v ∈ value :: values, WritesFinite v m.2 := by
          refine (ih (fun w hw => h w (.tail _ hw)) values).imp fun members hmembers m hm => ?_
          obtain ⟨v, hv, hfinite⟩ := hmembers m hm
          exact ⟨v, .tail _ hv, hfinite⟩
        rw [encodeFields]
        -- A field that is left out adds no member.
        split
        · refine (h writer (.head _) value).bind fun d hd => hrest.bind fun members hmembers => ?_
          refine .pure ?_
          rw [List.forall_mem_cons]
          exact ⟨⟨value, .head _, hd⟩, hmembers⟩
        · exact hrest

/-- `encodeRecord` ensures `WritesFinite` where the fields do. -/
theorem encodeRecord_ensures
    (h : ∀ writer ∈ writers, ∀ v, Ensures inv (writer v) (WritesFinite v)) (type : RecordType)
    (v : Value) : Ensures inv (encodeRecord type writers v) (WritesFinite v) := by
  cases v with
  | null => exact .pure fun _ => .of_leaf rfl trivial
  | record other values =>
    rw [encodeRecord]
    -- The value has the type of the record, or it is refused.
    split
    · refine (encodeFields_ensures h _ values).bind fun members hmembers => .pure fun hv => ?_
      refine .intro trivial fun d hd => ?_
      obtain ⟨m, hm, rfl⟩ := List.mem_map.mp hd
      obtain ⟨value, hvalue, hfinite⟩ := hmembers m hm
      exact hfinite (hv.at_part hvalue)
    · exact .throw _
  | _ => exact .throw _

variable {step : Value → Session Datum}

mutual

/-- `encodeWith` of a `Standard` converter ensures `WritesFinite` where dynamic values are written
    so. -/
theorem encodeWith_ensures (h : ∀ v, Ensures inv (step v) (WritesFinite v)) :
    (c : Converter) → c.Standard → (v : Value) →
      Ensures inv (encodeWith step c v) (WritesFinite v)
  -- One case for each converter. A converter of parts has its rule, given what its parts write.
  | .leaf codec, _, v => by
    rw [encodeWith]
    exact .ofExcept fun d hd hv => Codec.Leaf.finite_of_encode hv.at_top hd
  | nullable type inner, hc, v => by
    rw [encodeWith]
    -- Null is written as null, and another value as what the option holds.
    split
    · exact .pure fun _ => .of_leaf rfl trivial
    · exact encodeWith_ensures h inner (hc.at_part (.head _)) v
  | list type element, hc, v => by
    rw [encodeWith]
    exact encodeList_ensures (encodeWith_ensures h element (hc.at_part (.head _))) type v
  | map type value, hc, v => by
    rw [encodeWith]
    exact encodeMap_ensures (encodeWith_ensures h value (hc.at_part (.head _))) type v
  | grouping type key value, hc, v => by
    rw [encodeWith]
    exact encodeGrouping_ensures (encodeWith_ensures h key (hc.at_part (.head _)))
      (encodeWith_ensures h value (hc.at_part (.tail _ (.head _)))) type v
  -- The encoders of a tuple or record are those of its items or fields.
  | tuple type items encodes, hc, v => by
    rw [encodeWith]
    exact encodeTuple_ensures (encodersWith_ensures h items fun c hmem => hc.at_part hmem) type
      encodes v
  | record type fields, hc, v => by
    rw [encodeWith]
    exact encodeRecord_ensures (encodersWith_ensures h fields fun c hmem => hc.at_part hmem) type v
  | dynamic, _, v => by
    rw [encodeWith]
    exact h v
  -- What a converter from outside writes is not known, and a `Standard` one has none.
  | custom type encode decode, hc, v => absurd hc.at_top id

/-- `encodeWith_ensures` for the converters of items or fields. -/
theorem encodersWith_ensures (h : ∀ v, Ensures inv (step v) (WritesFinite v)) :
    (cs : List Converter) → (∀ c ∈ cs, c.Standard) →
      ∀ writer ∈ encodersWith step cs, ∀ v, Ensures inv (writer v) (WritesFinite v)
  | [], _ => by
    rw [encodersWith]
    exact List.forall_mem_nil _
  | c :: cs, hcs => by
    rw [encodersWith, List.forall_mem_cons]
    exact ⟨encodeWith_ensures h c (hcs c (.head _)),
      encodersWith_ensures h cs fun c hc => hcs c (.tail _ hc)⟩

end

variable {resolve : Ty → Session Converter}

/-- `encodeDynamic` ensures `WritesFinite` where all converters that are found are `Standard`. -/
theorem encodeDynamic_ensures (h : ∀ t, Ensures inv (resolve t) Standard) (steps : Nat)
    (v : Value) : Ensures inv (encodeDynamic resolve steps v) (WritesFinite v) := by
  induction steps generalizing v with
  | zero => exact .throw _
  | succ steps ih =>
    rw [encodeDynamic]
    -- Null is written as null, and everything else by a standard converter.
    split
    · exact .pure fun _ => .of_leaf rfl trivial
    · exact (h _).bind fun c hc => encodeWith_ensures ih c hc v

/-- Where finding converters ensures that they are `Standard`, `encode` of a standard converter
    ensures `WritesFinite`: the documents of representable values have finite numbers. -/
theorem encode_ensures (h : ∀ t, Ensures inv (resolve t) Standard) {c : Converter}
    (hc : c.Standard) (v : Value) : Ensures inv (c.encode resolve v) (WritesFinite v) :=
  encodeWith_ensures (encodeDynamic_ensures h _) c hc v

end Encode

end Converter

end DocQuery
