import DocQuery.Proofs.Codec.Assignable
import DocQuery.Proofs.Codec.Undeclared
import DocQuery.Proofs.Schema.Text

/-!
# Null is absence

Every converter of the default chain takes null, in both directions, as its type says: null stands
for absence where the type has it, and it is refused with the name of the type elsewhere. Nothing
but null is read as null or written as null.

## Key results

- `Converter.decodeWith_null`, `Converter.encodeWith_null`: what converters make of null
- `Converter.decodeWith_null_only`, `Converter.encodeWith_null_only`: nothing else comes out as null
- `Factory.resolve_fits`: converters that are found fit the types that they are found for
- `Engine.null_is_absence`: null is read and written where the type has it, and nothing else is
-/

namespace DocQuery

open Sequence (exists_of_bind_eq_ok exists_of_map_eq_ok)
open Session (Ensures Keeps)

/-! ## Results of sessions -/

namespace Session

variable {α β : Type} {inv : ConverterCache → Prop}

/-- From every cache a result of the session has the property, which is `Ensures` without an
    invariant. -/
abbrev Gives (s : Session α) (holds : α → Prop) : Prop := Ensures (fun _ => True) s holds

/-- Only the session that comes last has to give the property: nothing is asked of `s`. -/
theorem Gives.bind {s : Session α} {f : α → Session β} {holds : β → Prop}
    (hf : ∀ a, Gives (f a) holds) : Gives (s >>= f) holds := by
  have hany : Gives s fun _ => True := fun _ _ => ⟨trivial, fun _ _ => trivial⟩
  exact Ensures.bind hany fun a _ => hf a

/-- What holds of the results from every cache is ensured where the session `Keeps` an invariant. -/
theorem Gives.ensures {s : Session α} {holds : α → Prop} (h : Gives s holds)
    (hkeeps : Keeps inv s) : Ensures inv s holds :=
  fun cache hinv => ⟨(hkeeps cache hinv).1, (h cache trivial).2⟩

/-- Where the first session succeeds with `a`, the result is that of the pure computation `p` that
    ends the session. -/
theorem run_bind_ofExcept {s : Session α} {f : α → Session β} {cache : ConverterCache} {a : α}
    {p : Except Error β} (h : (s.run cache).1 = .ok a) (hf : f a = MonadExcept.ofExcept p) :
    (run (s >>= f) cache).1 = p := by
  -- The session runs first, and the rest from the cache that it leaves.
  rcases hrun : s.run cache with ⟨e | found, after⟩
  · rw [hrun] at h
    cases h
  · rw [hrun] at h
    obtain rfl := Except.ok.inj h
    rw [run_bind_ok hrun, hf]
    cases p <;> rfl

end Session

open Session (Gives)

theorem Value.eq_null_of_isNull {v : Value} (h : v.isNull = true) : v = .null := by
  cases v <;> first | rfl | cases h

namespace Converter

/-! ## Null goes in -/

/-- A container goes by a nullable type of its kind, a tuple by its own, and tuples are written.
    Custom converters do as they please, so none is fitting. -/
def FittingNode : Converter → Prop
  | nullable type _ | list type _ | map type _ | grouping type _ _ => type.isNullable = true
  | tuple type _ encodes => type.isNullable = false ∧ encodes = true
  | custom _ _ _ => False
  | _ => True

section Null

universe u

variable {m : Type → Type u} [Monad m] [MonadExcept Error m] {c : Converter}

/-- What becomes of null: absence where `t` has it, and otherwise the error `nullNotAllowed` with
    the text of `t`. -/
def absence {α : Type} (t : Ty) (null : α) : Except Error α :=
  if t.isNullable then .ok null else .error (.nullNotAllowed t.text)

/-- A leaf codec reads null as its type says, by `absence`. -/
theorem decode_leaf_null (codec : Codec.Leaf) : codec.decode .null = absence codec.type .null := by
  cases codec with
  -- How a variant is written makes no difference to null, but only a case split shows it.
  | enum type encoding => cases encoding <;> rfl
  | _ => rfl

theorem encode_leaf_null (codec : Codec.Leaf) : codec.encode .null = absence codec.type .null := by
  cases codec <;> rfl

/-- A converter reads null as its type says, where `step` reads dynamic null as null. -/
theorem decodeWith_null {step : Datum → m Value} (hstep : step .null = pure .null)
    (hc : c.FittingNode) :
    decodeWith step c .null = MonadExcept.ofExcept (absence c.type .null) := by
  cases c with
  | leaf codec => rw [decodeWith, decode_leaf_null, type]
  -- Options, lists, maps and groupings give null, as their types are nullable.
  | nullable type | list type | map type | grouping type =>
    have hc : type.isNullable = true := hc
    simp only [decodeWith, Converter.type, absence, hc, if_true]
    rfl
  -- A tuple refuses null.
  | tuple type items encodes =>
    have hc : type.isNullable = false := hc.1
    simp only [decodeWith, Converter.type, absence, hc]
    rfl
  | record type fields => rw [decodeWith]; rfl
  | dynamic => rw [decodeWith, hstep]; rfl
  | custom => exact hc.elim

/-- A converter writes null as its type says, where `step` writes dynamic null as null. -/
theorem encodeWith_null {step : Value → m Datum} (hstep : step .null = pure .null)
    (hc : c.FittingNode) :
    encodeWith step c .null = MonadExcept.ofExcept (absence c.type .null) := by
  cases c with
  | leaf codec => rw [encodeWith, encode_leaf_null, type]
  -- As in reading, one case for the nullable types.
  | nullable type | list type | map type | grouping type =>
    have hc : type.isNullable = true := hc
    simp only [encodeWith, Converter.type, absence, hc, if_true]
    rfl
  | tuple type items encodes =>
    obtain ⟨hc, rfl⟩ := hc
    simp only [encodeWith, Converter.type, absence, hc]
    rfl
  | record type fields => rw [encodeWith]; rfl
  | dynamic => rw [encodeWith, hstep]; rfl
  | custom => exact hc.elim

/-- Every fitting converter reads null as its type says, whatever `resolve` finds for dynamic
    documents. -/
theorem decode_null [LawfulMonad m] (resolve : Ty → m Converter) (hc : c.FittingNode) :
    c.decode resolve .null = MonadExcept.ofExcept (absence c.type .null) := by
  refine decodeWith_null ?_ hc
  rw [decodeDynamic, Datum.inferType]
  exact pure_bind _ _

/-- Every fitting converter writes null as its type says, whatever `resolve` finds for dynamic
    values. -/
theorem encode_null (resolve : Ty → m Converter) (hc : c.FittingNode) :
    c.encode resolve .null = MonadExcept.ofExcept (absence c.type .null) :=
  encodeWith_null rfl hc

end Null

/-! ## Null comes out -/

/-- Only `null` is read as `null`. -/
def ReadsNull (d : Datum) (v : Value) : Prop := v = .null → d = .null

/-- Only `null` is written as `null`. -/
def WritesNull (v : Value) (d : Datum) : Prop := d = .null → v = .null

/-- A leaf codec reads only null as `null`: most give values of their own kind, and `binary` looks
    for null first. -/
theorem readsNull_of_leaf {codec : Codec.Leaf} {d : Datum} {v : Value}
    (h : codec.decode d = .ok v) : ReadsNull d v := by
  rintro rfl
  cases codec with
  -- These are read from one kind of datum, and null is none of them.
  | bool | string | f64 => cases d <;> cases h
  -- These parse the datum, and give no null where they succeed.
  | char | uuid | url =>
    cases d with
    | string s =>
      simp only [Codec.Leaf.decode] at h
      split at h <;> cases h
    | _ => cases h
  | f32 =>
    cases d with
    | number x =>
      simp only [Codec.Leaf.decode] at h
      split at h <;> cases h
    | _ => cases h
  -- A number is checked first, and what is made of it is a number or a span.
  | int kind =>
    cases d with
    | number x =>
      obtain ⟨_, -, hv⟩ := exists_of_map_eq_ok h
      cases hv
    | _ => cases h
  | span =>
    cases d with
    | number x =>
      obtain ⟨_, -, hv⟩ := exists_of_map_eq_ok h
      cases hv
    | _ => cases h
  | instant millis | zoned millis =>
    obtain ⟨_, -, hv⟩ := exists_of_map_eq_ok h
    cases hv
  | binary =>
    cases d with
    | null => rfl
    -- Any other datum is refused or read as bytes.
    | _ =>
      simp only [Codec.Leaf.decode, Codec.decodeBinary] at h
      split_ifs at h
      split at h
      · cases h
      · split at h <;> cases h
  | enum type encoding =>
    -- Both encodings end in the search for a variant.
    simp only [Codec.Leaf.decode, Codec.decodeEnum] at h
    split at h
    · obtain ⟨n, -, h⟩ := exists_of_bind_eq_ok h
      split at h <;> cases h
    · split at h <;> cases h
    · cases h
    · cases h

/-- A leaf codec writes only null as `null`, since every other value of its type has a document of
    its own. -/
theorem writesNull_of_leaf {codec : Codec.Leaf} {d : Datum} {v : Value}
    (h : codec.encode v = .ok d) : WritesNull v d := by
  rintro rfl
  -- A codec would have to write null, which only that of bytes does, and for null.
  cases codec with
  | int kind =>
    -- Kinds whose writing is guarded have to be opened; what they write is a number or a text.
    cases v with
    | int k n =>
      simp only [Codec.Leaf.encode] at h
      split_ifs at h
      cases h
    | _ => cases h
  | f32 | f64 =>
    cases v <;> simp only [Codec.Leaf.encode, reduceCtorEq] at h
    unfold Codec.finiteNumber at h
    split_ifs at h
    cases h
  -- Enumerations are written as the name or the discriminant.
  | enum type encoding =>
    cases v with
    | enum other n =>
      simp only [Codec.Leaf.encode, Codec.encodeEnum] at h
      split_ifs at h
      split at h
      · cases h
      · split at h <;> cases h
    | _ => cases h
  | _ => cases v <;> first | rfl | cases h

section Decode

variable {inv : ConverterCache → Prop} {first second : Datum → Session Value}
  {readers : List (Datum → Session Value)} {step : Datum → Session Value}

/-- Only null is read as `null` by a list; other documents are lists or errors. -/
theorem decodeList_gives (d : Datum) : Gives (decodeList first d) (ReadsNull d) := by
  cases d with
  | null => exact .pure fun _ => rfl
  | array items => exact .bind fun _ => .pure fun h => by cases h
  | _ => exact .throw _

/-- Only null is read as `null` by a map. -/
theorem decodeMap_gives (d : Datum) : Gives (decodeMap first d) (ReadsNull d) := by
  cases d with
  | null => exact .pure fun _ => rfl
  | object members =>
    rw [decodeMap]
    -- Only null is read as null; a tagged object is refused.
    split
    · exact .throw _
    · exact .bind fun _ => .pure fun h => by cases h
  | _ => exact .throw _

/-- Only null is read as `null` by a grouping, which looks for `isNull` before the tag. -/
theorem decodeGrouping_gives (type : Ty) (d : Datum) :
    Gives (decodeGrouping type first second d) (ReadsNull d) := by
  unfold decodeGrouping
  split
  · exact .pure fun _ => Datum.eq_null_of_isNull ‹_›
  · split
    · exact .throw _
    · split
      · exact .bind fun _ => .pure fun h => by cases h
      · exact .throw _

/-- A pair is never read as `null`, whatever `keys` it is looked up by. -/
theorem decodePair_gives (d : Datum) (keys : List (String × String)) :
    Gives (decodePair first second d keys) (ReadsNull d) := by
  induction keys with
  | nil => exact .throw _
  | cons pair rest ih =>
    rw [decodePair]
    split
    · exact .bind fun _ => .bind fun _ => .pure fun h => by cases h
    · exact ih
    · exact .throw _

/-- A tuple is never read as `null`, neither from an array nor from an object. -/
theorem decodeTuple_gives (type : Ty) (d : Datum) :
    Gives (decodeTuple type readers d) (ReadsNull d) := by
  unfold decodeTuple
  -- Tuples are read from an array or, two items at a time, from an object, but never from null.
  split
  · split
    · exact .bind fun _ => .pure fun h => by cases h
    · exact .throw _
  · exact decodePair_gives _ _
  · exact .throw _
  · exact .throw _

/-- Only null is read as `null` by a record. -/
theorem decodeRecord_gives (type : RecordType) (d : Datum) :
    Gives (decodeRecord type readers d) (ReadsNull d) := by
  cases d with
  | null => exact .pure fun _ => rfl
  | object members =>
    rw [decodeRecord]
    split
    · exact .throw _
    · exact .bind fun _ => .pure fun h => by cases h
  | _ => exact .throw _

/-- A converter that gives the property from every cache ensures it where the dynamic steps keep the
    invariant. -/
theorem ensures_readsNull (hstep : ∀ d, Ensures inv (step d) (ReadsNull d)) {c : Converter}
    {d : Datum} (h : Gives (decodeWith step c d) (ReadsNull d)) :
    Ensures inv (decodeWith step c d) (ReadsNull d) :=
  h.ensures (decodeWith_ensures (fun d => (hstep d).keeps) c d)

/-- A standard converter reads only null as `null` where `step` reads dynamic documents so. An
    option leaves this to what it holds. -/
theorem decodeWith_null_only (hstep : ∀ d, Ensures inv (step d) (ReadsNull d)) :
    (c : Converter) → c.Standard → ∀ d, Ensures inv (decodeWith step c d) (ReadsNull d)
  | .leaf codec, _ => fun d => by
    rw [decodeWith]
    exact .ofExcept fun _ => readsNull_of_leaf
  | nullable type inner, hc => fun d => by
    rw [decodeWith]
    split
    · exact .pure fun _ => Datum.eq_null_of_isNull ‹_›
    · -- The datum is not null, so it is up to what the option holds.
      exact decodeWith_null_only hstep inner (hc.at_part (.head _)) d
  | dynamic, _ => fun d => by
    rw [decodeWith]
    exact hstep d
  -- Standard converters hold no custom ones.
  | custom _ _ _, hc => absurd hc.at_top id
  | list type element, _ => fun d => by
    refine ensures_readsNull hstep ?_
    rw [decodeWith]
    exact decodeList_gives d
  | map type value, _ => fun d => by
    refine ensures_readsNull hstep ?_
    rw [decodeWith]
    exact decodeMap_gives d
  | grouping type key value, _ => fun d => by
    refine ensures_readsNull hstep ?_
    rw [decodeWith]
    exact decodeGrouping_gives type d
  | tuple type items encodes, _ => fun d => by
    refine ensures_readsNull hstep ?_
    rw [decodeWith]
    exact decodeTuple_gives type d
  | record type fields, _ => fun d => by
    refine ensures_readsNull hstep ?_
    rw [decodeWith]
    exact decodeRecord_gives type d

/-- Dynamic documents are read by standard converters, and only null has the inferred type
    `dynamic`. -/
theorem decodeDynamic_null_only {resolve : Ty → Session Converter}
    (h : ∀ t, Ensures inv (resolve t) Standard) (steps : Nat) (d : Datum) :
    Ensures inv (decodeDynamic resolve steps d) (ReadsNull d) := by
  induction steps generalizing d with
  -- Out of steps: an error has no result to say anything of.
  | zero => exact .throw _
  | succ steps ih =>
    have htype : Ensures inv (MonadExcept.ofExcept d.inferType) fun t => d.inferType = .ok t :=
      .ofExcept fun _ ht => ht
    rw [decodeDynamic]
    refine htype.bind fun type htype => ?_
    split
    · rename_i hdynamic
      -- The type `dynamic` means that the document is null, and null is what is read.
      rw [Ty.eq_of_same_undeclared Ty.named_dynamic hdynamic] at htype
      exact .pure fun _ => Datum.eq_null_of_inferType htype
    · exact (h type).bind fun c hc => decodeWith_null_only ih c hc d

end Decode

section Encode

variable {inv : ConverterCache → Prop} {first second : Value → Session Datum}
  {writers : List (Value → Session Datum)} {step : Value → Session Datum}

/-- Only null is written as `null` by a list; other values are arrays or errors. -/
theorem encodeList_gives (type : Ty) (v : Value) :
    Gives (encodeList type first v) (WritesNull v) := by
  cases v with
  | null => exact .pure fun _ => rfl
  | list items => exact .bind fun _ => .pure fun h => by cases h
  | _ => exact .throw _

/-- Only null is written as `null` by a map. -/
theorem encodeMap_gives (type : Ty) (v : Value) :
    Gives (encodeMap type first v) (WritesNull v) := by
  cases v with
  | null => exact .pure fun _ => rfl
  | map entries => exact .bind fun _ => .pure fun h => by cases h
  | _ => exact .throw _

/-- Only null is written as `null` by a grouping. -/
theorem encodeGrouping_gives (type : Ty) (v : Value) :
    Gives (encodeGrouping type first second v) (WritesNull v) := by
  cases v with
  | null => exact .pure fun _ => rfl
  | grouping groups => exact .bind fun _ => .pure fun h => by cases h
  | _ => exact .throw _

/-- A tuple is never written as `null`. -/
theorem encodeTuple_gives (type : Ty) (encodes : Bool) (v : Value) :
    Gives (encodeTuple type writers encodes v) (WritesNull v) := by
  unfold encodeTuple
  split
  · exact .throw _
  · -- The number of values has to be that of the converters.
    split
    · split
      · exact .bind fun _ => .pure fun h => by cases h
      · exact .throw _
    · exact .throw _

/-- Only null is written as `null` by a record. -/
theorem encodeRecord_gives (type : RecordType) (v : Value) :
    Gives (encodeRecord type writers v) (WritesNull v) := by
  cases v with
  | null => exact .pure fun _ => rfl
  | record other values =>
    rw [encodeRecord]
    split
    · exact .bind fun _ => .pure fun h => by cases h
    · exact .throw _
  | _ => exact .throw _

/-- A converter that gives the property from every cache ensures it where the dynamic steps keep the
    invariant. -/
theorem ensures_writesNull (hstep : ∀ v, Ensures inv (step v) (WritesNull v)) {c : Converter}
    {v : Value} (h : Gives (encodeWith step c v) (WritesNull v)) :
    Ensures inv (encodeWith step c v) (WritesNull v) :=
  h.ensures (encodeWith_keeps (fun v _ => (hstep v).keeps) c
    (Value.everywhere_of_forall (fun _ => trivial) v))

/-- A standard converter writes only null as `null` where `step` writes dynamic values so. -/
theorem encodeWith_null_only (hstep : ∀ v, Ensures inv (step v) (WritesNull v)) :
    (c : Converter) → c.Standard → ∀ v, Ensures inv (encodeWith step c v) (WritesNull v)
  | .leaf codec, _ => fun v => by
    rw [encodeWith]
    exact .ofExcept fun _ => writesNull_of_leaf
  | nullable type inner, hc => fun v => by
    rw [encodeWith]
    split
    · exact .pure fun _ => Value.eq_null_of_isNull ‹_›
    · -- As in reading, an option leaves a value that is not null to what it holds.
      exact encodeWith_null_only hstep inner (hc.at_part (.head _)) v
  | dynamic, _ => fun v => by
    rw [encodeWith]
    exact hstep v
  | custom _ _ _, hc => absurd hc.at_top id
  -- These write an array or an object for all but null, whatever the steps do.
  | list type element, _ => fun v => by
    refine ensures_writesNull hstep ?_
    rw [encodeWith]
    exact encodeList_gives type v
  | map type value, _ => fun v => by
    refine ensures_writesNull hstep ?_
    rw [encodeWith]
    exact encodeMap_gives type v
  | grouping type key value, _ => fun v => by
    refine ensures_writesNull hstep ?_
    rw [encodeWith]
    exact encodeGrouping_gives type v
  | tuple type items encodes, _ => fun v => by
    refine ensures_writesNull hstep ?_
    rw [encodeWith]
    exact encodeTuple_gives type encodes v
  | record type fields, _ => fun v => by
    refine ensures_writesNull hstep ?_
    rw [encodeWith]
    exact encodeRecord_gives type v

/-- Dynamic values are written by standard converters, but for null, which `encodeDynamic` writes
    itself. -/
theorem encodeDynamic_null_only {resolve : Ty → Session Converter}
    (h : ∀ t, Ensures inv (resolve t) Standard) (steps : Nat) (v : Value) :
    Ensures inv (encodeDynamic resolve steps v) (WritesNull v) := by
  induction steps generalizing v with
  | zero => exact .throw _
  | succ steps ih =>
    rw [encodeDynamic]
    split
    · exact .pure fun _ => Value.eq_null_of_isNull ‹_›
    · exact (h _).bind fun c hc => encodeWith_null_only ih c hc v

end Encode

end Converter

/-! ## Converters that fit -/

/-- Types that are the `same` are nullable alike. -/
theorem Ty.isNullable_eq_of_same {s t : Ty} (h : s.same t = true) :
    s.isNullable = t.isNullable := by
  cases s <;> cases t <;> first | rfl | cases h

/-- The converter takes null as the type `t` says, and goes by its name, so errors name `t` as
    well. -/
def Converter.Fits (c : Converter) (t : Ty) : Prop :=
  c.FittingNode ∧ c.type.text = t.text ∧ c.type.isNullable = t.isNullable

/-- Every converter in the cache `Fits` the type that it was built for. -/
def ConverterCache.Fitting (cache : ConverterCache) : Prop :=
  ∀ entry ∈ cache.entries, entry.2.Fits entry.1

/-- There is no converter in the empty cache that could fail to be `Fitting`. -/
theorem ConverterCache.fitting_empty : ConverterCache.empty.Fitting := List.forall_mem_nil _

namespace Factory

variable {settings : Settings}

/-- The `tuple` factory ends in converters that fit, where it writes tuples. -/
theorem tuple_endsFrom {given : Converter → Prop} (t : Ty) :
    ((tuple true).recipe t).EndsFrom given fun c => c.Fits t := by
  cases t with
  | tuple items =>
    cases items with
    | nil => trivial
    | cons item items => exact Recipe.endsFrom_requireAll _ fun _ => ⟨⟨rfl, rfl⟩, rfl, rfl⟩
  | _ => trivial

/-- A `record` factory ends in converters that fit, for records of its kind. -/
theorem record_endsFrom {given : Converter → Prop} (kind : RecordKind) (t : Ty) :
    ((record kind).recipe t).EndsFrom given fun c => c.Fits t := by
  cases t with
  | record r =>
    show (if r.kind = kind then recordRecipe r else .pass).EndsFrom given _
    -- The factory serves the records of its kind.
    split
    · exact Recipe.endsFrom_requireAll _ fun _ => ⟨trivial, rfl, rfl⟩
    · trivial
  | _ => trivial

/-- The `grouping` factory ends in converters that fit, whatever it is given for the key and the
    value. -/
theorem grouping_endsFrom {given : Converter → Prop} (t : Ty) :
    (grouping.recipe t).EndsFrom given fun c => c.Fits t := by
  cases t with
  | grouping key value =>
    exact Recipe.endsFrom_require _ fun _ => Recipe.endsFrom_require _ fun _ => ⟨rfl, rfl, rfl⟩
  | _ => trivial

/-- What the factories of `defaults` build fits the type, whatever they are given for its
    components. -/
theorem defaults_endsFrom {given : Converter → Prop} (htuple : settings.tupleEncoding = true)
    (t : Ty) :
    ∀ factory ∈ defaults settings, (factory.recipe t).EndsFrom given fun c => c.Fits t := by
  simp only [defaults, List.forall_mem_cons, htuple]
  refine ⟨?_, ?_, ?_, ?_, ?_, ?_, ?_, ?_, grouping_endsFrom t, tuple_endsFrom t,
    record_endsFrom _ t, record_endsFrom _ t, ?_, List.forall_mem_nil _⟩
  -- The others go by one constructor each, and pass on all other types.
  all_goals
    cases t
    all_goals first
      | trivial
      | exact ⟨trivial, rfl, rfl⟩
      | exact Recipe.endsFrom_require _ fun _ => ⟨rfl, rfl, rfl⟩

/-- The default chain finds converters that fit. The invariant is that the cache is `Fitting`. -/
theorem resolve_fits (htuple : settings.tupleEncoding = true) (t : Ty) :
    Ensures ConverterCache.Fitting (resolve (defaults settings) t) fun c => c.Fits t := by
  -- Components are smaller.
  induction hsize : t.size using Nat.strong_induction_on generalizing t with
  | _ size ih =>
    have hchain : ∀ factory ∈ defaults settings,
        (factory.recipe t).EndsFrom (fun _ => True) fun c => c.Fits t :=
      defaults_endsFrom htuple t
    refine resolve_ensures_of_components ?_ ?_ (fun child hsmaller _ => ?_)
      (defaults_needsComponents settings) hchain
    · -- A cached converter was built for a type that is only the same, which has the same name and
      -- nullability.
      intro cache c hcache hfind
      obtain ⟨s, hmem, hsame⟩ := ConverterCache.mem_of_find? hfind
      obtain ⟨hnode, htext, hnullable⟩ := hcache _ hmem
      exact ⟨hnode, htext.trans (Ty.text_eq_of_same hsame),
        hnullable.trans (Ty.isNullable_eq_of_same hsame)⟩
    · -- A converter that is entered into the cache fits by what was just shown of it.
      intro cache c hcache hc entry hentry
      rcases List.mem_append.mp hentry with hold | hnew
      · exact hcache entry hold
      · obtain rfl := List.mem_singleton.mp hnew
        exact hc
    · exact (ih child.size (hsize ▸ hsmaller) child rfl).keeps

end Factory

/-! ## Engines -/

namespace Engine

variable {settings : Settings} {cache : ConverterCache}

theorem Reaches.fitting (htuple : settings.tupleEncoding = true)
    (h : (ofSettings settings).Reaches .empty cache) : cache.Fitting :=
  h.keeps (fun t => (Factory.resolve_fits htuple t).keeps) ConverterCache.fitting_empty

/-- Only null is read as `null`, by every converter that the engine finds. -/
theorem decode_null_only (t : Ty) (d : Datum) :
    Ensures ConverterCache.Standard ((ofSettings settings).decode t d)
      (Converter.ReadsNull d) :=
  (resolve_ensures t).bind fun c hc =>
    c.decodeWith_null_only (Converter.decodeDynamic_null_only resolve_ensures _) hc d

/-- Only null is written as `null`, by every converter that the engine finds. -/
theorem encode_null_only (t : Ty) (v : Value) :
    Ensures ConverterCache.Standard ((ofSettings settings).encode t v)
      (Converter.WritesNull v) :=
  (resolve_ensures t).bind fun c hc =>
    c.encodeWith_null_only (Converter.encodeDynamic_null_only resolve_ensures _) hc v

/-- After any requests, an engine of the default chain that writes tuples, and that finds a
    converter for a type, reads and writes null as `null` where the type `isNullable` and refuses it
    with the error `nullNotAllowed` otherwise. It reads nothing but null as `null`, and writes
    nothing but null as `null`. -/
theorem null_is_absence (htuple : settings.tupleEncoding = true)
    (hcache : (ofSettings settings).Reaches .empty cache) {t : Ty} {c : Converter}
    (hresolve : (((ofSettings settings).resolve t).run cache).1 = .ok c) :
    (((ofSettings settings).decode t .null).run cache).1 =
        (if t.isNullable then .ok .null else .error (.nullNotAllowed t.text)) ∧
      (((ofSettings settings).encode t .null).run cache).1 =
        (if t.isNullable then .ok .null else .error (.nullNotAllowed t.text)) ∧
      (∀ d, (((ofSettings settings).decode t d).run cache).1 = .ok .null → d = .null) ∧
      ∀ v, (((ofSettings settings).encode t v).run cache).1 = .ok .null → v = .null := by
  obtain ⟨hnode, htext, hnullable⟩ :=
    (Factory.resolve_fits htuple t cache (hcache.fitting htuple)).2 c hresolve
  have hstandard := hcache.sound.2
  -- Errors name the type of the converter, which is that of the request in all that shows.
  have habsence {α : Type} (null : α) :
      Converter.absence c.type null = Converter.absence t null := by
    simp only [Converter.absence, htext, hnullable]
  refine ⟨?_, ?_, fun d h => (decode_null_only t d cache hstandard).2 _ h rfl,
    fun v h => (encode_null_only t v cache hstandard).2 _ h rfl⟩
  · exact (Session.run_bind_ofExcept hresolve (Converter.decode_null _ hnode)).trans (habsence _)
  · exact (Session.run_bind_ofExcept hresolve (Converter.encode_null _ hnode)).trans (habsence _)

/-- The cache after a request for an optional text, in which the component of the tuple below is
    found. -/
def optionCache : ConverterCache :=
  (ofSettings tupleSettings).serve .empty (.resolve (.option .string))

/-- The engine finds a converter for a tuple of an optional text, from `optionCache`. -/
theorem resolve_single : (((ofSettings tupleSettings).resolve (.tuple [.option .string])).run
    optionCache).1 = .ok (.tuple (.tuple [.option .string])
      [.nullable (.option .string) (.leaf .string)] true) := by
  -- The request before has put the option into the cache.
  have hcache : (ofSettings tupleSettings).Reaches .empty optionCache := .single ⟨_, rfl⟩
  have hnamed : (Ty.tuple [.option .string]).Named .undeclared :=
    Ty.named_tuple.mpr (List.forall_mem_singleton.mpr
      (Ty.named_option.mpr (.of_leaf rfl trivial)))
  obtain ⟨after, hrun, -⟩ := Factory.run_resolve ConverterCache.knows_undeclared
    (Factory.defaults_needsComponents tupleSettings) hcache.sound.1 hnamed
  show ((Factory.resolve (Factory.defaults tupleSettings) _).run optionCache).1 = _
  rw [hrun, Factory.build_tuple (by decide), Sequence.collect, Factory.build_option,
    Factory.build_leaf rfl]
  rfl

/-- A tuple is not null, though its only item may be: both directions answer with
    `nullNotAllowed`. -/
theorem null_is_absence_single :
    (tupleSettings.tupleEncoding = true ∧
      (ofSettings tupleSettings).Reaches .empty optionCache ∧
      (((ofSettings tupleSettings).resolve (.tuple [.option .string])).run optionCache).1 =
        .ok (.tuple (.tuple [.option .string]) [.nullable (.option .string) (.leaf .string)]
          true)) ∧
    (((ofSettings tupleSettings).decode (.tuple [.option .string]) .null).run optionCache).1 =
      .error (.nullNotAllowed (Ty.tuple [.option .string]).text) ∧
    (((ofSettings tupleSettings).encode (.tuple [.option .string]) .null).run optionCache).1 =
      .error (.nullNotAllowed (Ty.tuple [.option .string]).text) ∧
    (∀ d, (((ofSettings tupleSettings).decode (.tuple [.option .string]) d).run
      optionCache).1 = .ok .null → d = .null) ∧
    ∀ v, (((ofSettings tupleSettings).encode (.tuple [.option .string]) v).run
      optionCache).1 = .ok .null → v = .null :=
  have hcache : (ofSettings tupleSettings).Reaches .empty optionCache := .single ⟨_, rfl⟩
  ⟨⟨rfl, hcache, resolve_single⟩, null_is_absence rfl hcache resolve_single⟩

end Engine

end DocQuery
