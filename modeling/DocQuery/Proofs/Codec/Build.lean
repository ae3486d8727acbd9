import DocQuery.Codec.Engine
import DocQuery.Proofs.Sequence

/-!
# What the default chain builds

The first factory of the default chain that serves a type builds its converter, from the converters
of its components where it has any. One equation for each kind of type says which converter it is.

## Key results

- `Factory.build_leaf`, `Factory.build_dynamic`: the converters of types without parts
- `Factory.build_option`, `build_list`, `build_map`, `build_grouping`, `build_tuple`,
  `build_record`: the converters of types with parts, given those of the parts
- `Factory.builds_of_build`: what the default chain builds is one of these
-/

namespace DocQuery

open Sequence (collect exists_of_bind_eq_ok exists_of_map_eq_ok forall₂_of_collect)

/-! ## Running recipes -/

namespace Recipe

variable {t : Ty} (resolve : Ty → Except Error Converter)

/-- `require` goes on with the converter that `resolve` finds for the child. -/
theorem run_require {child : Ty} (smaller : child.size < t.size) (next : Converter → Recipe t) :
    (require child smaller next).run (fun child _ => resolve child) =
      resolve child >>= fun c => (next c).run fun child _ => resolve child := by
  -- The recipe is given the error of `resolve` as well, and `require` hands it on.
  show (tryCatch (Except.ok <$> resolve child) fun e => pure (.error e)) >>= _ = _
  cases resolve child <;> rfl

/-- `requireAll` goes on with the converters that `resolve` finds for all children. -/
theorem run_requireAll {children : List Ty} (smaller : ∀ child ∈ children, child.size < t.size)
    (next : List Converter → Recipe t) :
    (requireAll children smaller next).run (fun child _ => resolve child) =
      collect resolve children >>= fun cs => (next cs).run fun child _ => resolve child := by
  induction children generalizing next with
  | nil => rfl
  | cons child rest ih =>
    rw [requireAll, run_require, collect]
    cases resolve child with
    | error e => rfl
    | ok c =>
      -- What is left is a `requireAll` for the other children, with the first converter kept for
      -- `next`.
      show (requireAll rest _ fun cs => next (c :: cs)).run _ = _
      rw [ih]
      cases collect resolve rest <;> rfl

end Recipe

namespace Factory

/-- `build` gives what the first factory of the chain that does not `pass` answers. -/
theorem build_of_recipe {t : Ty} {chain : List Factory} (before : List Factory)
    {factory : Factory} {after : List Factory} (hchain : chain = before ++ factory :: after)
    (hpass : ∀ f ∈ before, f.recipe t = .pass) {built : Except Error Converter}
    (h : (factory.recipe t).run (fun child _ => build chain child) = built.map some) :
    build chain t = built := by
  subst hchain
  rw [build]
  -- What the factories before it would build their parts with does not matter.
  generalize (fun child (_ : child.size < t.size) => build (before ++ factory :: after) child)
    = resolve at h ⊢
  induction before with
  | nil =>
    rw [List.nil_append, firstOf, h]
    cases built <;> rfl
  | cons f before ih =>
    -- The factory at the front passes, so the answer is that of the chain without it.
    have hskip : firstOf t resolve (f :: (before ++ factory :: after)) =
        firstOf t resolve (before ++ factory :: after) := by
      rw [firstOf, hpass f (.head _)]
      rfl
    rw [List.cons_append, hskip]
    exact ih fun g hg => hpass g (.tail _ hg)

/-! ## Types without parts -/

variable {settings : Settings}

/-- The codec that the default chain has for a type without parts. -/
def leaf? (settings : Settings) : Ty → Option Codec.Leaf
  | .bool => some .bool
  | .char => some .char
  | .string => some .string
  | .int kind => some (.int kind)
  | .f32 => some .f32
  | .f64 => some .f64
  | .uuid => some .uuid
  | .url => some .url
  | .binary => some .binary
  | .instant => some (.instant settings.timeMillis)
  | .zoned => some (.zoned settings.timeMillis)
  | .span => some .span
  | .enum type => some (.enum type settings.enumEncoding)
  | _ => none

/-- `build` gives a type without parts the converter of its `leaf?`. -/
theorem build_leaf {t : Ty} {codec : Codec.Leaf} (hleaf : leaf? settings t = some codec) :
    build (defaults settings) t = .ok (.leaf codec) := by
  rw [build]
  cases t <;> first | (obtain rfl := Option.some.inj hleaf; rfl) | cases hleaf

/-- `build` gives a type without parts no other converter than that of its `leaf?`. -/
theorem eq_leaf_of_build {t : Ty} {codec : Codec.Leaf} {c : Converter}
    (hleaf : leaf? settings t = some codec) (h : build (defaults settings) t = .ok c) :
    c = .leaf codec := by
  rw [build_leaf hleaf] at h
  exact (Except.ok.inj h).symm

/-- `build` gives the dynamic type its one converter. -/
theorem build_dynamic : build (defaults settings) .dynamic = .ok .dynamic := by
  rw [build]
  rfl

/-! ## Containers -/

/-- The factories before those of containers. -/
private abbrev leaves (settings : Settings) : List Factory :=
  [primitive, enum settings.enumEncoding, identifier, time settings.timeMillis, binary]

/-- `build` of an option, from the converter of the type inside. -/
theorem build_option (t : Ty) : build (defaults settings) (.option t) =
    (build (defaults settings) t).map (.nullable (.option t)) := by
  apply build_of_recipe (leaves settings) rfl
  · simp only [List.forall_mem_cons]
    exact ⟨rfl, rfl, rfl, rfl, rfl, List.forall_mem_nil _⟩
  · -- The factory of options asks for one converter and wraps it up.
    exact (Recipe.run_require (build (defaults settings)) _ _).trans
      (by cases build (defaults settings) t <;> rfl)

/-- `build` of a list, from the converter of its items. -/
theorem build_list (t : Ty) : build (defaults settings) (.list t) =
    (build (defaults settings) t).map (.list (.list t)) := by
  apply build_of_recipe (leaves settings ++ [nullable]) rfl
  · simp only [List.cons_append, List.nil_append, List.forall_mem_cons]
    exact ⟨rfl, rfl, rfl, rfl, rfl, rfl, List.forall_mem_nil _⟩
  · exact (Recipe.run_require (build (defaults settings)) _ _).trans
      (by cases build (defaults settings) t <;> rfl)

/-- `build` of a map, from the converter of its values. -/
theorem build_map (t : Ty) : build (defaults settings) (.map t) =
    (build (defaults settings) t).map (.map (.map t)) := by
  apply build_of_recipe (leaves settings ++ [nullable, list]) rfl
  · simp only [List.cons_append, List.nil_append, List.forall_mem_cons]
    exact ⟨rfl, rfl, rfl, rfl, rfl, rfl, rfl, List.forall_mem_nil _⟩
  · exact (Recipe.run_require (build (defaults settings)) _ _).trans
      (by cases build (defaults settings) t <;> rfl)

/-- `build` of a grouping, from the converters of keys and values, asked for in this order. -/
theorem build_grouping (k v : Ty) : build (defaults settings) (.grouping k v) = (do
    let key ← build (defaults settings) k
    let value ← build (defaults settings) v
    return .grouping (.grouping k v) key value) := by
  apply build_of_recipe (leaves settings ++ [nullable, list, map]) rfl
  · simp only [List.cons_append, List.nil_append, List.forall_mem_cons]
    exact ⟨rfl, rfl, rfl, rfl, rfl, rfl, rfl, rfl, List.forall_mem_nil _⟩
  · apply (Recipe.run_require (build (defaults settings)) _ _).trans
    cases build (defaults settings) k with
    | error e => rfl
    | ok key =>
      -- The second converter is asked for by the recipe that goes on from the first.
      have hsmaller : v.size < (Ty.grouping k v).size := Nat.lt_succ_of_le (Nat.le_add_left ..)
      apply (Recipe.run_require (build (defaults settings)) hsmaller _).trans
      cases build (defaults settings) v <;> rfl

/-- `build` of a tuple with items, from the converters of the items. -/
theorem build_tuple {items : List Ty} (hitems : items ≠ []) :
    build (defaults settings) (.tuple items) = (collect (build (defaults settings)) items).map
      fun cs => .tuple (.tuple items) cs settings.tupleEncoding := by
  apply build_of_recipe (leaves settings ++ [nullable, list, map, grouping]) rfl
  · simp only [List.cons_append, List.nil_append, List.forall_mem_cons]
    exact ⟨rfl, rfl, rfl, rfl, rfl, rfl, rfl, rfl, rfl, List.forall_mem_nil _⟩
  · -- The tuple has an item, so the factory asks for converters.
    cases items with
    | nil => exact absurd rfl hitems
    | cons item items =>
      apply (Recipe.run_requireAll (build (defaults settings)) _ _).trans
      cases collect (build (defaults settings)) (item :: items) <;> rfl

/-- `build` refuses the empty tuple. -/
theorem build_tuple_nil : build (defaults settings) (.tuple []) =
    .error (.conversionNotSupported (Ty.tuple []).text) := by
  rw [build]
  rfl

/-- `build` of a record, from the converters of its fields in their order. -/
theorem build_record (r : RecordType) : build (defaults settings) (.record r) =
    (collect (build (defaults settings)) (r.fields.map Field.type)).map (.record r) := by
  have hbefore : ∀ f ∈ leaves settings ++ [nullable, list, map, grouping,
      tuple settings.tupleEncoding], f.recipe (.record r) = .pass := by
    simp only [List.cons_append, List.nil_append, List.forall_mem_cons]
    exact ⟨rfl, rfl, rfl, rfl, rfl, rfl, rfl, rfl, rfl, rfl, List.forall_mem_nil _⟩
  have hrun : (recordRecipe r).run (fun child _ => build (defaults settings) child) =
      ((collect (build (defaults settings)) (r.fields.map Field.type)).map (.record r)).map some :=
    (Recipe.run_requireAll (build (defaults settings)) _ _).trans
      (by cases collect (build (defaults settings)) (r.fields.map Field.type) <;> rfl)
  -- One of the two factories of records serves the kind, and the other one passes.
  cases hkind : r.kind with
  | anonymous =>
    have hrecipe : (record .anonymous).recipe (.record r) = recordRecipe r := if_pos hkind
    exact build_of_recipe _ rfl hbefore (hrecipe ▸ hrun)
  | declared =>
    have hpass : (record .anonymous).recipe (.record r) = .pass := if_neg (by simp [hkind])
    have hrecipe : (record .declared).recipe (.record r) = recordRecipe r := if_pos hkind
    exact build_of_recipe (leaves settings ++ [nullable, list, map, grouping,
      tuple settings.tupleEncoding, record .anonymous]) rfl (by simpa [hpass] using hbefore)
      (hrecipe ▸ hrun)

/-! ## Inversion -/

/-- `collect build` gives a converter for each type. -/
theorem length_of_collect {ts : List Ty} {cs : List Converter}
    (hcs : collect (build (defaults settings)) ts = .ok cs) : cs.length = ts.length :=
  (forall₂_of_collect hcs).length_eq.symm

/-- The converter that the default chain builds for a type, one case for each kind of type. -/
inductive Builds (settings : Settings) : Ty → Converter → Prop where
  | leaf {t : Ty} {codec : Codec.Leaf} (hleaf : leaf? settings t = some codec) :
    Builds settings t (.leaf codec)
  | option {t : Ty} {c : Converter} (inner : build (defaults settings) t = .ok c) :
    Builds settings (.option t) (.nullable (.option t) c)
  | list {t : Ty} {c : Converter} (element : build (defaults settings) t = .ok c) :
    Builds settings (.list t) (.list (.list t) c)
  | map {t : Ty} {c : Converter} (value : build (defaults settings) t = .ok c) :
    Builds settings (.map t) (.map (.map t) c)
  | grouping {k v : Ty} {kc vc : Converter} (key : build (defaults settings) k = .ok kc)
    (value : build (defaults settings) v = .ok vc) :
    Builds settings (.grouping k v) (.grouping (.grouping k v) kc vc)
  | tuple {ts : List Ty} {cs : List Converter} (nonempty : ts ≠ [])
    (items : List.Forall₂ (fun t c => build (defaults settings) t = .ok c) ts cs) :
    Builds settings (.tuple ts) (.tuple (.tuple ts) cs settings.tupleEncoding)
  | record {r : RecordType} {cs : List Converter}
    (fields : List.Forall₂ (fun t c => build (defaults settings) t = .ok c)
      (r.fields.map Field.type) cs) :
    Builds settings (.record r) (.record r cs)
  | dynamic : Builds settings .dynamic .dynamic

/-- What `build` gives is one of the converters that `Builds` lists. -/
theorem builds_of_build {t : Ty} {c : Converter} (h : build (defaults settings) t = .ok c) :
    Builds settings t c := by
  cases t with
  | option inner =>
    rw [build_option] at h
    obtain ⟨c, hc, rfl⟩ := exists_of_map_eq_ok h
    exact .option hc
  | list element =>
    rw [build_list] at h
    obtain ⟨c, hc, rfl⟩ := exists_of_map_eq_ok h
    exact .list hc
  | map value =>
    rw [build_map] at h
    obtain ⟨c, hc, rfl⟩ := exists_of_map_eq_ok h
    exact .map hc
  | grouping key value =>
    rw [build_grouping] at h
    obtain ⟨k, hk, h⟩ := exists_of_bind_eq_ok h
    obtain ⟨v, hv, h⟩ := exists_of_bind_eq_ok h
    obtain rfl := Except.ok.inj h
    exact .grouping hk hv
  | tuple items =>
    -- The empty tuple has no converter, so there are items.
    cases items with
    | nil =>
      rw [build_tuple_nil] at h
      cases h
    | cons item items =>
      rw [build_tuple (List.cons_ne_nil _ _)] at h
      obtain ⟨cs, hcs, rfl⟩ := exists_of_map_eq_ok h
      exact .tuple (List.cons_ne_nil _ _) (forall₂_of_collect hcs)
  | record r =>
    rw [build_record] at h
    obtain ⟨cs, hcs, rfl⟩ := exists_of_map_eq_ok h
    exact .record (forall₂_of_collect hcs)
  | dynamic =>
    rw [build_dynamic] at h
    obtain rfl := Except.ok.inj h
    exact .dynamic
  -- The other types have no parts, and each has its codec.
  | _ =>
    obtain rfl := eq_leaf_of_build rfl h
    exact .leaf rfl

/-- A map type is served by the converter of its values: `Builds` leaves no other. -/
theorem exists_of_build_map {t : Ty} {c : Converter}
    (h : build (defaults settings) (.map t) = .ok c) :
    ∃ value, c = .map (.map t) value ∧ build (defaults settings) t = .ok value := by
  cases builds_of_build h with
  | leaf hleaf => cases hleaf
  | map hvalue => exact ⟨_, rfl, hvalue⟩

/-- A record type is served by the converters of its fields in their order: `Builds` leaves no
    other. -/
theorem exists_of_build_record {r : RecordType} {c : Converter}
    (h : build (defaults settings) (.record r) = .ok c) :
    ∃ converters, c = .record r converters ∧
      List.Forall₂ (fun t c => build (defaults settings) t = .ok c) (r.fields.map Field.type)
        converters := by
  cases builds_of_build h with
  | leaf hleaf => cases hleaf
  | record hfields => exact ⟨_, rfl, hfields⟩

/-- The codec that `leaf?` has for a type handles the values of the type. -/
theorem type_of_leaf? {t : Ty} {codec : Codec.Leaf} (h : leaf? settings t = some codec) :
    codec.type = t := by
  cases t <;> first | (obtain rfl := Option.some.inj h; rfl) | cases h

end Factory

end DocQuery
