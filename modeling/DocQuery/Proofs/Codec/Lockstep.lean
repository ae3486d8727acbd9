import DocQuery.Proofs.Codec.Depth
import DocQuery.Proofs.Sequence

/-!
# Converters in lockstep

Two runs of a converter differ only in how they read dynamic documents or write dynamic values. A
relation between computations that composition keeps holds of two runs where it holds of these
steps, in whichever monads the runs are.

## Key results

- `Converter.decodeWith_related`, `Converter.encodeWith_related`: a converter takes steps on parts
  only, and on the whole where it passes it on
- `Converter.decodeWith_related_of_steps`, `Converter.encodeWith_related_of_steps`: related steps
  make related runs
- `Converter.decodeWith_related_below`: so do steps that are related up to the depth of a document
-/

namespace DocQuery

open Sequence (collect collectZip)

universe u v

/-- A relation between computations in the monads `m` and `n` that holds of equal results and errors
    and that composition keeps. -/
structure Lockstep (m : Type → Type u) (n : Type → Type v) [Monad m] [MonadExcept Error m]
    [Monad n] [MonadExcept Error n] where
  Related : {α : Type} → m α → n α → Prop
  pure : ∀ {α : Type} (a : α), Related (Pure.pure a) (Pure.pure a)
  throw : ∀ {α : Type} (e : Error), Related (α := α) (MonadExcept.throw e) (MonadExcept.throw e)
  bind : ∀ {α β : Type} {x : m α} {y : n α} {f : α → m β} {g : α → n β}, Related x y →
    (∀ a, Related (f a) (g a)) → Related (x >>= f) (y >>= g)

variable {m : Type → Type u} {n : Type → Type v} [Monad m] [MonadExcept Error m] [Monad n]
  [MonadExcept Error n]

namespace Lockstep

variable (R : Lockstep m n) {α β : Type}

/-- Computations without effects but errors are related to themselves under `ofExcept`. -/
theorem ofExcept (x : Except Error α) :
    R.Related (MonadExcept.ofExcept x) (MonadExcept.ofExcept x) := by
  cases x with
  | ok a => exact R.pure a
  | error e => exact R.throw e

variable {R}

/-- Steps that are related on every item are so in sequence, by `collect`. -/
theorem collect_related {step : α → m β} {step' : α → n β} {items : List α}
    (h : ∀ item ∈ items, R.Related (step item) (step' item)) :
    R.Related (collect step items) (collect step' items) := by
  induction items with
  | nil => exact R.pure []
  | cons item rest ih =>
    -- Both runs take the same path: the results so far are equal, so the relation carries over each
    -- bind.
    rw [collect, collect]
    refine R.bind (h item (.head _)) fun result => ?_
    exact R.bind (ih fun a ha => h a (.tail _ ha)) fun results => R.pure _

/-- Steps at their places that are related on every item are so in sequence, by `collectZip`. -/
theorem collectZip_related {γ : Type} {steps : γ → α → m β} {steps' : γ → α → n β} {cs : List γ}
    {items : List α} (h : ∀ c ∈ cs, ∀ item ∈ items, R.Related (steps c item) (steps' c item)) :
    R.Related (collectZip (cs.map steps) items) (collectZip (cs.map steps') items) := by
  induction cs generalizing items with
  | nil => exact R.pure []
  | cons c cs ih =>
    -- Either list may end first, and then both runs are done.
    cases items with
    | nil => exact R.pure []
    | cons item rest =>
      rw [List.map_cons, List.map_cons, collectZip, collectZip]
      refine R.bind (h c (.head _) item (.head _)) fun result => ?_
      exact R.bind (ih fun c hc a ha => h c (.tail _ hc) a (.tail _ ha)) fun results => R.pure _

end Lockstep

namespace Converter

/-- The converter does not pass what it is given on to the dynamic step: only parts of it get there.
    An option is not `Guarded`, since what it holds is no part but the value itself. -/
def Guarded : Converter → Prop
  | nullable .. | dynamic => False
  | _ => True

variable {R : Lockstep m n}

/-! ## Writing -/

section Encode

variable {write : Value → m Datum} {write' : Value → n Datum}
  {writers : Converter → Value → m Datum} {writers' : Converter → Value → n Datum}
  {step : Value → m Datum} {step' : Value → n Datum} {v : Value}

/-- The writers of a list of converters are the `encodeWith step` of each. -/
theorem encodersWith_eq_map (cs : List Converter) :
    encodersWith step cs = cs.map (encodeWith step) := by
  induction cs with
  | nil => rfl
  | cons c cs ih => rw [encodersWith, ih, List.map_cons]

/-- A list is written in lockstep where its items are. -/
theorem encodeList_related (type : Ty) (h : ∀ p ∈ v.parts, R.Related (write p) (write' p)) :
    R.Related (encodeList type write v) (encodeList type write' v) := by
  cases v with
  | null => exact R.pure _
  | list items => exact R.bind (Lockstep.collect_related h) fun _ => R.pure _
  | _ => exact R.throw _

/-- A map is written in lockstep where its values are; the keys are texts in both runs. -/
theorem encodeMap_related (type : Ty) (h : ∀ p ∈ v.parts, R.Related (write p) (write' p)) :
    R.Related (encodeMap type write v) (encodeMap type write' v) := by
  cases v with
  | null => exact R.pure _
  | map entries =>
    refine R.bind (Lockstep.collect_related fun entry hentry => ?_) fun _ => R.pure _
    exact R.bind (h entry.2 (List.mem_map_of_mem hentry)) fun _ => R.pure _
  | _ => exact R.throw _

/-- A grouping is written in lockstep where the keys and the values of its groups are, which are
    both among its `parts`. -/
theorem encodeGrouping_related (type : Ty) {value : Value → m Datum} {value' : Value → n Datum}
    (h : ∀ p ∈ v.parts, R.Related (write p) (write' p))
    (h' : ∀ p ∈ v.parts, R.Related (value p) (value' p)) :
    R.Related (encodeGrouping type write value v) (encodeGrouping type write' value' v) := by
  cases v with
  | null => exact R.pure _
  | grouping groups =>
    refine R.bind (Lockstep.collect_related fun group hgroup => ?_) fun _ => R.pure _
    have hparts : ∀ part ∈ [group.1, group.2], part ∈ (Value.grouping groups).parts :=
      fun part hpart => List.mem_flatMap.mpr ⟨group, hgroup, hpart⟩
    -- The key of a group is written before its value.
    refine R.bind (h _ (hparts _ (.head _))) fun _ => ?_
    exact R.bind (h' _ (hparts _ (.tail _ (.head _)))) fun _ => R.pure _
  | _ => exact R.throw _

/-- A tuple is written in lockstep where its items are; whether `encodes` refuses it is the same in
    both runs. -/
theorem encodeTuple_related (type : Ty) (encodes : Bool) {cs : List Converter}
    (h : ∀ c ∈ cs, ∀ p ∈ v.parts, R.Related (writers c p) (writers' c p)) :
    R.Related (encodeTuple type (cs.map writers) encodes v)
      (encodeTuple type (cs.map writers') encodes v) := by
  unfold encodeTuple
  -- Both sides refuse tuples, or neither does, since the setting is the same.
  split
  · exact R.throw _
  · cases v with
    | tuple values =>
      dsimp only
      rw [List.length_map, List.length_map]
      -- So is the number of converters.
      split
      · exact R.bind (Lockstep.collectZip_related h) fun _ => R.pure _
      · exact R.throw _
    | _ => exact R.throw _

/-- Fields are written in lockstep where their values are. The three lists need not be of one
    length. -/
theorem encodeFields_related {declared : List Field} {cs : List Converter} {values : List Value}
    (h : ∀ c ∈ cs, ∀ p ∈ values, R.Related (writers c p) (writers' c p)) :
    R.Related (encodeFields declared (cs.map writers) values)
      (encodeFields declared (cs.map writers') values) := by
  induction declared generalizing cs values with
  | nil => exact R.pure _
  | cons field declared ih =>
    cases cs with
    | nil => exact R.pure _
    | cons c cs =>
      cases values with
      | nil => exact R.pure _
      | cons value values =>
        have hrest := ih fun c hc p hp => h c (.tail _ hc) p (.tail _ hp)
        rw [List.map_cons, List.map_cons, encodeFields, encodeFields]
        -- Whether a field is left out depends on its value only.
        split
        · refine R.bind (h c (.head _) value (.head _)) fun _ => ?_
          exact R.bind hrest fun _ => R.pure _
        · exact hrest

/-- A record is written in lockstep where its fields are. -/
theorem encodeRecord_related (type : RecordType) {cs : List Converter}
    (h : ∀ c ∈ cs, ∀ p ∈ v.parts, R.Related (writers c p) (writers' c p)) :
    R.Related (encodeRecord type (cs.map writers) v) (encodeRecord type (cs.map writers') v) := by
  cases v with
  | null => exact R.pure _
  | record other values =>
    rw [encodeRecord, encodeRecord]
    -- Both sides compare the same two types.
    split
    · exact R.bind (encodeFields_related h) fun _ => R.pure _
    · exact R.throw _
  | _ => exact R.throw _

/-- A converter writes a value in lockstep where it writes `parts` so, and where `step` writes the
    whole value so or the converter is `Guarded` and does not pass it on. -/
theorem encodeWith_related
    (h : ∀ c, ∀ p ∈ v.parts, R.Related (encodeWith step c p) (encodeWith step' c p)) :
    (c : Converter) → c.Guarded ∨ R.Related (step v) (step' v) →
      R.Related (encodeWith step c v) (encodeWith step' c v)
  -- Codecs take no step, so both sides are the same.
  | .leaf codec, _ => by
    rw [encodeWith, encodeWith]
    exact R.ofExcept _
  | nullable type inner, hstep => by
    rw [encodeWith, encodeWith]
    split
    · exact R.pure _
    · -- An option hands the value on as it is, so the steps have to be related on it.
      exact encodeWith_related h inner (.inr (hstep.resolve_left id))
  -- The parts are related by `h`, whatever converter they go to.
  | list type element, _ => by
    rw [encodeWith, encodeWith]
    exact encodeList_related type (h element)
  | map type value, _ => by
    rw [encodeWith, encodeWith]
    exact encodeMap_related type (h value)
  | grouping type key value, _ => by
    rw [encodeWith, encodeWith]
    exact encodeGrouping_related type (h key) (h value)
  | tuple type items encodes, _ => by
    rw [encodeWith, encodeWith, encodersWith_eq_map, encodersWith_eq_map]
    exact encodeTuple_related type encodes fun c _ => h c
  | record type fields, _ => by
    rw [encodeWith, encodeWith, encodersWith_eq_map, encodersWith_eq_map]
    exact encodeRecord_related type fun c _ => h c
  -- The dynamic converter is not guarded, so the steps are related.
  | dynamic, hstep => by
    rw [encodeWith, encodeWith]
    exact hstep.resolve_left id
  | custom type encode decode, _ => by
    rw [encodeWith, encodeWith]
    exact R.ofExcept _

/-- Steps that are related on all values with a property make every converter write such values in
    lockstep: the induction on the parts of the value discharges the premise of
    `encodeWith_related`. -/
theorem encodeWith_related_of_steps {holds : Value → Prop}
    (h : ∀ v, Everywhere Value.parts holds v → R.Related (step v) (step' v)) (c : Converter)
    (hv : Everywhere Value.parts holds v) :
    R.Related (encodeWith step c v) (encodeWith step' c v) := by
  induction hv generalizing c with
  | intro top rest ih => exact encodeWith_related (fun c p hp => ih p hp c) c (.inr (h _ ⟨top, rest⟩))

end Encode

/-! ## Reading -/

section Decode

variable {read second : Datum → m Value} {read' second' : Datum → n Value}
  {readers : Converter → Datum → m Value} {readers' : Converter → Datum → n Value}
  {step : Datum → m Value} {step' : Datum → n Value} {d : Datum}

/-- The readers of a list of converters are the `decodeWith step` of each. -/
theorem decodersWith_eq_map (cs : List Converter) :
    decodersWith step cs = cs.map (decodeWith step) := by
  induction cs with
  | nil => rfl
  | cons c cs ih => rw [decodersWith, ih, List.map_cons]

/-- A list is read in lockstep where its items are. -/
theorem decodeList_related (h : ∀ p ∈ d.parts, R.Related (read p) (read' p)) :
    R.Related (decodeList read d) (decodeList read' d) := by
  cases d with
  | null => exact R.pure _
  | array items => exact R.bind (Lockstep.collect_related h) fun _ => R.pure _
  | _ => exact R.throw _

/-- The entries of a map are read in lockstep where their data are; `done` are the entries read so
    far, which are equal in both runs. -/
theorem decodeEntries_related {members : List (String × Datum)}
    (h : ∀ m ∈ members, R.Related (read m.2) (read' m.2)) (done : List (String × Value)) :
    R.Related (decodeEntries read done members) (decodeEntries read' done members) := by
  induction members generalizing done with
  | nil => exact R.pure _
  | cons m rest ih =>
    rw [decodeEntries, decodeEntries]
    refine R.bind (h m (.head _)) fun decoded => ?_
    -- A key that was there before is refused by both.
    split
    · exact R.throw _
    · exact ih (fun m hm => h m (.tail _ hm)) _

/-- A map is read in lockstep where its members are. -/
theorem decodeMap_related (h : ∀ p ∈ d.parts, R.Related (read p) (read' p)) :
    R.Related (decodeMap read d) (decodeMap read' d) := by
  cases d with
  | null => exact R.pure _
  -- A member's value is a part of the document.
  | object members =>
    rw [decodeMap, decodeMap]
    split
    · exact R.throw _
    · refine R.bind (decodeEntries_related (fun m hm => ?_) []) fun _ => R.pure _
      exact h _ (List.mem_map_of_mem hm)
  | _ => exact R.throw _

/-- The two parts of a group are read one after the other, each in lockstep. -/
theorem decodeGroup_related (h : ∀ p ∈ d.parts, R.Related (read p) (read' p))
    (h' : ∀ p ∈ d.parts, R.Related (second p) (second' p)) :
    R.Related (decodeGroup read second d) (decodeGroup read' second' d) := by
  unfold decodeGroup
  split
  · rename_i k v
    refine R.bind (h k (.head _)) fun _ => ?_
    exact R.bind (h' v (.tail _ (.head _))) fun _ => R.pure _
  · exact R.throw _

/-- A grouping is read in lockstep where all documents of less `depth` are: its keys and values are
    no direct parts of it. -/
theorem decodeGrouping_related (type : Ty)
    (h : ∀ p : Datum, p.depth < d.depth → R.Related (read p) (read' p))
    (h' : ∀ p : Datum, p.depth < d.depth → R.Related (second p) (second' p)) :
    R.Related (decodeGrouping type read second d) (decodeGrouping type read' second' d) := by
  unfold decodeGrouping
  split
  · exact R.pure _
  · split
    · exact R.throw _
    · split
      · rename_i pairs hpairs
        -- The groups lie two levels down, and their keys and values one more.
        have hbelow : ∀ pair ∈ pairs, ∀ p ∈ pair.parts, p.depth < d.depth := by
          intro pair hpair p hp
          obtain ⟨data, hdata, hitem⟩ := Datum.mem_parts_of_asArray? hpairs hpair
          exact (Datum.depth_lt_of_mem_parts hp).trans
            ((Datum.depth_lt_of_mem_parts hitem).trans (Datum.depth_lt_of_mem_parts hdata))
        refine R.bind (Lockstep.collect_related fun pair hpair => ?_) fun _ => R.pure _
        exact decodeGroup_related (fun p hp => h p (hbelow pair hpair p hp))
          fun p hp => h' p (hbelow pair hpair p hp)
      · exact R.throw _

/-- A pair that is an object is read in lockstep where its members are, whichever of `keys` name
    them. -/
theorem decodePair_related (h : ∀ p ∈ d.parts, R.Related (read p) (read' p))
    (h' : ∀ p ∈ d.parts, R.Related (second p) (second' p)) (keys : List (String × String)) :
    R.Related (decodePair read second d keys) (decodePair read' second' d keys) := by
  induction keys with
  | nil => exact R.throw _
  | cons pair rest ih =>
    rw [decodePair, decodePair]
    -- A pair of keys is there, or it is not, or the next pair is tried.
    split
    · rename_i a b ha hb
      refine R.bind (h a (Datum.mem_parts_of_get? ha)) fun _ => ?_
      exact R.bind (h' b (Datum.mem_parts_of_get? hb)) fun _ => R.pure _
    · exact ih
    · exact R.throw _

/-- A tuple is read in lockstep where its items or members are. -/
theorem decodeTuple_related (type : Ty) {cs : List Converter}
    (h : ∀ c ∈ cs, ∀ p ∈ d.parts, R.Related (readers c p) (readers' c p)) :
    R.Related (decodeTuple type (cs.map readers) d) (decodeTuple type (cs.map readers') d) := by
  cases d with
  | array ds =>
    rw [decodeTuple, decodeTuple, List.length_map, List.length_map]
    split
    · exact R.bind (Lockstep.collectZip_related h) fun _ => R.pure _
    · exact R.throw _
  | object members =>
    -- Only a pair may be an object.
    rcases cs with _ | ⟨first, _ | ⟨second, _ | _⟩⟩
    · exact R.throw _
    · exact R.throw _
    · exact decodePair_related (h first (.head _)) (h second (.tail _ (.head _))) pairKeys
    · exact R.throw _
  | _ => exact R.throw _

/-- Members are read into fields in lockstep where each converter reads each member so; `record` is
    what has been read so far. -/
theorem decodeFields_related (type : RecordType) {cs : List Converter}
    {members : List (String × Datum)}
    (h : ∀ c ∈ cs, ∀ m ∈ members, R.Related (readers c m.2) (readers' c m.2))
    (record : RecordValue) :
    R.Related (decodeFields type (cs.map readers) record members)
      (decodeFields type (cs.map readers') record members) := by
  induction members generalizing record with
  | nil => exact R.pure _
  | cons m rest ih =>
    have ih := fun record => ih (fun c hc m hm => h c hc m (.tail _ hm)) record
    rw [decodeFields, decodeFields]
    -- A member that no field is named after is left out on both sides.
    cases hfield : type.fieldByWireName? m.1 with
    | none => exact ih record
    | some found =>
      obtain ⟨index, field⟩ := found
      -- A field without a converter is left out on both sides as well.
      simp only [List.getElem?_map]
      cases hc : cs[index]? with
      | none => exact ih record
      | some c => exact R.bind (h c (List.mem_of_getElem? hc) m (.head _)) fun value => ih _

/-- A record is read in lockstep where its members are. -/
theorem decodeRecord_related (type : RecordType) {cs : List Converter}
    (h : ∀ c ∈ cs, ∀ p ∈ d.parts, R.Related (readers c p) (readers' c p)) :
    R.Related (decodeRecord type (cs.map readers) d) (decodeRecord type (cs.map readers') d) := by
  cases d with
  | null => exact R.pure _
  | object members =>
    rw [decodeRecord, decodeRecord]
    -- A tagged document is refused by both.
    split
    · exact R.throw _
    · refine R.bind (decodeFields_related type (fun c hc m hm => ?_) _) fun _ => R.pure _
      exact h c hc m.2 (List.mem_map_of_mem hm)
  | _ => exact R.throw _

/-- A converter reads a document in lockstep where it reads documents of less `depth` so, and where
    `step` reads the whole document so or the converter is `Guarded` and does not pass it on. -/
theorem decodeWith_related
    (h : ∀ c (p : Datum), p.depth < d.depth →
      R.Related (decodeWith step c p) (decodeWith step' c p)) :
    (c : Converter) → c.Guarded ∨ R.Related (step d) (step' d) →
      R.Related (decodeWith step c d) (decodeWith step' c d)
  | .leaf codec, _ => by
    rw [decodeWith, decodeWith]
    exact R.ofExcept _
  | nullable type inner, hstep => by
    rw [decodeWith, decodeWith]
    split
    · exact R.pure _
    · -- The inner converter of an option gets the same document, which only the relation of the
      -- steps covers.
      exact decodeWith_related h inner (.inr (hstep.resolve_left id))
  | list type element, _ => by
    rw [decodeWith, decodeWith]
    exact decodeList_related fun p hp => h element p (Datum.depth_lt_of_mem_parts hp)
  | map type value, _ => by
    rw [decodeWith, decodeWith]
    exact decodeMap_related fun p hp => h value p (Datum.depth_lt_of_mem_parts hp)
  | grouping type key value, _ => by
    rw [decodeWith, decodeWith]
    exact decodeGrouping_related type (h key) (h value)
  | tuple type items encodes, _ => by
    rw [decodeWith, decodeWith, decodersWith_eq_map, decodersWith_eq_map]
    exact decodeTuple_related type fun c _ p hp => h c p (Datum.depth_lt_of_mem_parts hp)
  | record type fields, _ => by
    rw [decodeWith, decodeWith, decodersWith_eq_map, decodersWith_eq_map]
    exact decodeRecord_related type fun c _ p hp => h c p (Datum.depth_lt_of_mem_parts hp)
  | dynamic, hstep => by
    rw [decodeWith, decodeWith]
    exact hstep.resolve_left id
  | custom type encode decode, _ => by
    rw [decodeWith, decodeWith]
    exact R.ofExcept _

/-- Steps that are related on all documents make `decodeWith` related under every converter. -/
theorem decodeWith_related_of_steps (h : ∀ d, R.Related (step d) (step' d)) (c : Converter)
    (d : Datum) : R.Related (decodeWith step c d) (decodeWith step' c d) := by
  -- Groupings reach below the parts of a document, so the induction is on its depth.
  induction hdepth : d.depth using Nat.strong_induction_on generalizing c d with
  | _ depth ih =>
    exact decodeWith_related (fun c p hlt => ih p.depth (hdepth ▸ hlt) c p rfl) c (.inr (h d))

/-- Steps that are related on documents of less than `depth` make `decodeWith` related on such
    documents. -/
theorem decodeWith_related_below {depth : Nat}
    (h : ∀ p : Datum, p.depth < depth → R.Related (step p) (step' p)) (c : Converter)
    (hd : d.depth < depth) : R.Related (decodeWith step c d) (decodeWith step' c d) := by
  induction hdepth : d.depth using Nat.strong_induction_on generalizing c d with
  | _ n ih =>
    refine decodeWith_related (fun c p hlt => ?_) c (.inr (h d hd))
    exact ih p.depth (hdepth ▸ hlt) c (hlt.trans hd) rfl

end Decode

end Converter

end DocQuery
