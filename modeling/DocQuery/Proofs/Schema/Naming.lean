import DocQuery.Proofs.Everywhere
import DocQuery.Proofs.Number.Exact
import DocQuery.Schema.Record
import DocQuery.Schema.Size

/-!
# Types over one naming

Declared types are compared by their names. Where one naming says which declared type each name
stands for, this comparison loses nothing: two types over the naming that are the same are equal.

## Key results

- `Ty.Named.eq_of_same`: types over one naming that are the same are equal
- `Ty.same_refl`, `Ty.same_symm`, `Ty.same_trans`: being the same is an equivalence of types
- `Naming.exists_of_eq_of_same`: types of which no two are the same and differ are over one naming
- `Value.Named.runtimeType`: the runtime type of a value over a naming is a type over it
- `Value.same_comm`, `Value.same_self`: equality of values is symmetric, and reflexive where
  anything equals the value
-/

namespace DocQuery

/-! ## Parts of types and of values -/

/-- The types that a type is built from directly, those of the fields of a record among them. -/
def Ty.components : Ty → List Ty
  | option inner => [inner]
  | list element => [element]
  | map value => [value]
  | tuple items => items
  | grouping key value => [key, value]
  | record type => type.fields.map Field.type
  | _ => []

/-- The values that a value holds directly: those to which `Everywhere` goes down. -/
def Value.parts : Value → List Value
  | list items => items
  | map entries => entries.map Prod.snd
  | tuple items => items
  | grouping groups => groups.flatMap fun group => [group.1, group.2]
  | record _ fields => fields
  | _ => []

/-! ## Namings -/

/-- Which declared type a name stands for. Records of the two kinds of `RecordKind` are named
    apart. -/
structure Naming where
  enum : String → EnumType
  record : String → RecordKind → RecordType

namespace Naming

/-- A declared type, an `enum` or a `record`, is the one that its name stands for. -/
def Declares (names : Naming) : Ty → Prop
  | .enum e => names.enum e.name = e
  | .record r => names.record r.name r.kind = r
  | _ => True

/-- The types that a value carries by itself are declared types of the naming, in all their
    `components`. -/
def Carries (names : Naming) : Value → Prop
  | .enum e _ => Everywhere Ty.components names.Declares (.enum e)
  | .record r _ => Everywhere Ty.components names.Declares (.record r)
  | _ => True

/-- The naming in which no name stands for a declared type of that name, as it adds a `*`. Types
    over it are those in which nothing is declared. -/
def undeclared : Naming :=
  ⟨fun name => ⟨name ++ "*", []⟩, fun name kind => ⟨name ++ "*", kind, []⟩⟩

/-- A name with a star behind it is longer than the name. -/
theorem append_star_ne (name : String) : name ++ "*" ≠ name := by
  intro h
  have hlength := congrArg String.length h
  rw [String.length_append] at hlength
  exact absurd hlength (by simp)

theorem not_declares_enum (e : EnumType) : ¬undeclared.Declares (.enum e) :=
  fun h => append_star_ne e.name (congrArg EnumType.name h)

theorem not_declares_record (r : RecordType) : ¬undeclared.Declares (.record r) :=
  fun h => append_star_ne r.name (congrArg RecordType.name h)

end Naming

/-- Every declared type in a type, at any depth, is the one that its name stands for: `Declares` of
    all `components`. -/
abbrev Ty.Named (names : Naming) : Ty → Prop := Everywhere Ty.components names.Declares

/-- Every type that a value carries, at any depth, is a type over the naming: `Carries` of all
    `parts`. -/
abbrev Value.Named (names : Naming) : Value → Prop := Everywhere Value.parts names.Carries

variable {names : Naming}

namespace Ty

/-- A type that is neither declared nor built from others is `Named` over every naming. -/
theorem named_of_leaf {t : Ty} (hparts : t.components = []) (htop : names.Declares t) :
    t.Named names :=
  .of_leaf hparts htop

@[simp] theorem named_dynamic : Named names dynamic := named_of_leaf rfl trivial

/-- An option is `Named` where its inner type is. -/
@[simp] theorem named_option {t : Ty} : (option t).Named names ↔ t.Named names :=
  ⟨fun h => h.at_part (.head _), fun h => .intro trivial (by simpa [components] using h)⟩

@[simp] theorem named_list {t : Ty} : (list t).Named names ↔ t.Named names :=
  ⟨fun h => h.at_part (.head _), fun h => .intro trivial (by simpa [components] using h)⟩

@[simp] theorem named_map {t : Ty} : (map t).Named names ↔ t.Named names :=
  ⟨fun h => h.at_part (.head _), fun h => .intro trivial (by simpa [components] using h)⟩

/-- A tuple is `Named` where all its item types are. -/
@[simp] theorem named_tuple {ts : List Ty} :
    (tuple ts).Named names ↔ ∀ t ∈ ts, t.Named names :=
  ⟨fun h _ => h.at_part, fun h => .intro trivial h⟩

/-- A grouping is `Named` where its key and its value types are. -/
@[simp] theorem named_grouping {k v : Ty} :
    (grouping k v).Named names ↔ k.Named names ∧ v.Named names :=
  ⟨fun h => ⟨h.at_part (.head _), h.at_part (.tail _ (.head _))⟩,
    fun h => .intro trivial (by simpa [components] using h)⟩

/-- Types that are the `same` are equal where that is so of the declared types in them, if the types
    on either side have a property that `components` inherit. -/
theorem eq_of_same_of {P Q : Ty → Prop}
    (hP : ∀ {t}, P t → ∀ child ∈ t.components, P child)
    (hQ : ∀ {t}, Q t → ∀ child ∈ t.components, Q child)
    (henum : ∀ {e f}, P (enum e) → Q (enum f) → e.name = f.name → e = f)
    (hrecord : ∀ {r s}, P (record r) → Q (record s) → r.name = s.name → r.kind = s.kind →
      r = s) {a b : Ty} (ha : P a) (hb : Q b) (h : a.same b = true) : a = b := by
  -- The cases are those of the comparison. Where the constructors differ it fails.
  revert ha hb h
  apply same.induct (fun a b => P a → Q b → same a b = true → a = b)
    fun as bs => (∀ a ∈ as, P a) → (∀ b ∈ bs, Q b) → sameItems as bs = true → as = bs
  case case13 =>
    intro e f ha hb h
    rw [henum ha hb (by simpa only [same, beq_iff_eq] using h)]
  case case14 | case15 | case16 =>
    intro a b ih ha hb h
    rw [ih (hP ha a (.head _)) (hQ hb b (.head _)) (by simpa only [same] using h)]
  case case17 =>
    -- Lists of item types go place by place.
    intro as bs ih ha hb h
    rw [ih (hP ha) (hQ hb) (by simpa only [same] using h)]
  case case18 =>
    intro k v l w ihk ihv ha hb h
    simp only [same, Bool.and_eq_true] at h
    rw [ihk (hP ha k (.head _)) (hQ hb l (.head _)) h.1,
      ihv (hP ha v (.tail _ (.head _))) (hQ hb w (.tail _ (.head _))) h.2]
  case case19 =>
    intro r s ha hb h
    simp only [same, Bool.and_eq_true, beq_iff_eq] at h
    rw [hrecord ha hb h.1 h.2]
  case case23 =>
    intro a as b bs iha ihas has hbs h
    simp only [sameItems, Bool.and_eq_true] at h
    rw [iha (has a (.head _)) (hbs b (.head _)) h.1,
      ihas (fun x hx => has x (.tail _ hx)) (fun x hx => hbs x (.tail _ hx)) h.2]
  all_goals simp_all [same, sameItems]

/-- Types over one naming that are the `same` are equal, as one name stands for both of two declared
    types. -/
theorem Named.eq_of_same {a b : Ty} (ha : a.Named names) (hb : b.Named names)
    (h : a.same b = true) : a = b := by
  refine eq_of_same_of (fun h _ => h.at_part) (fun h _ => h.at_part) ?_ ?_ ha hb h
  · -- Enumerations are the ones that the naming has for their name, and records likewise.
    intro e f he hf hname
    have he : names.enum e.name = e := he.at_top
    have hf : names.enum f.name = f := hf.at_top
    rw [← he, hname, hf]
  · intro r s hr hs hname hkind
    have hr : names.record r.name r.kind = r := hr.at_top
    have hs : names.record s.name s.kind = s := hs.at_top
    rw [← hr, hname, hkind, hs]

/-- A type in which nothing is declared is the `same` as itself only, whatever the other type is. -/
theorem eq_of_same_undeclared {a b : Ty} (hb : b.Named .undeclared) (h : a.same b = true) :
    a = b := by
  refine eq_of_same_of (P := fun _ => True) (fun _ _ _ => trivial) (fun h _ => h.at_part) ?_ ?_
    trivial hb h
  · exact fun _ hf _ => absurd hf.at_top (Naming.not_declares_enum _)
  · exact fun _ hs _ _ => absurd hs.at_top (Naming.not_declares_record _)

mutual

/-- `same` is reflexive on types. -/
theorem same_refl : (t : Ty) → t.same t = true
  | bool | char | string | f32 | f64 | uuid | url | binary | instant | zoned | span | dynamic => rfl
  | int kind => by simp [same]
  | enum e => by simp [same]
  | option t | list t | map t => by simpa only [same] using same_refl t
  | tuple ts => by simpa only [same] using sameItems_refl ts
  | grouping k v => by simp [same, same_refl k, same_refl v]
  | record r => by simp [same]

theorem sameItems_refl : (ts : List Ty) → sameItems ts ts = true
  | [] => rfl
  | t :: ts => by simp [sameItems, same_refl t, sameItems_refl ts]

end

/-- `same` is symmetric on types. -/
theorem same_symm {a b : Ty} (h : a.same b = true) : b.same a = true := by
  revert h
  apply same.induct (fun a b => a.same b = true → b.same a = true)
    fun as bs => sameItems as bs = true → sameItems bs as = true
  -- Every comparison inside is one of names, kinds or parts.
  all_goals intros; simp_all [same, sameItems]

/-- `same` is transitive on types. -/
theorem same_trans {a b c : Ty} (hab : a.same b = true) (hbc : b.same c = true) :
    a.same c = true := by
  revert c hab hbc
  apply same.induct (fun a b => ∀ {c}, a.same b = true → b.same c = true → a.same c = true)
    fun as bs => ∀ {cs}, sameItems as bs = true → sameItems bs cs = true → sameItems as cs = true
  -- In every case the third type is of the kind of the first two.
  -- Integer types by their kinds, and enumerations by their names.
  case case4 | case13 =>
    intro x y c hab hbc
    cases c <;> simp only [same, beq_iff_eq, Bool.false_eq_true] at hab hbc ⊢
    exact hab.trans hbc
  -- Types with one part and tuples, then groupings.
  case case14 | case15 | case16 | case17 =>
    intro x y ih c hab hbc
    cases c <;> simp only [same, Bool.false_eq_true] at hab hbc ⊢
    exact ih hab hbc
  case case18 =>
    intro k v l w ihk ihv c hab hbc
    cases c <;> simp only [same, Bool.and_eq_true, Bool.false_eq_true] at hab hbc ⊢
    exact ⟨ihk hab.1 hbc.1, ihv hab.2 hbc.2⟩
  -- Records are compared by kind and name.
  case case19 =>
    intro r s c hab hbc
    cases c <;> simp only [same, Bool.and_eq_true, beq_iff_eq, Bool.false_eq_true] at hab hbc ⊢
    exact ⟨hab.1.trans hbc.1, hab.2.trans hbc.2⟩
  case case23 =>
    intro a as b bs iha ihas cs hab hbc
    cases cs <;> simp only [sameItems, Bool.and_eq_true, Bool.false_eq_true] at hab hbc ⊢
    exact ⟨iha hab.1 hbc.1, ihas hab.2 hbc.2⟩
  -- What is left are types that say no more than their kind, and pairs of different kinds.
  all_goals
    intros
    simp_all [same, sameItems]

/-- A direct component has a smaller `size`, though the fields of a record are not in the recursion
    of types. -/
theorem size_lt_of_mem_components {child t : Ty} (h : child ∈ t.components) :
    child.size < t.size := by
  cases t with
  -- A part has the size of the type less one or more.
  | option inner | list inner | map inner =>
    obtain rfl := List.mem_singleton.mp h
    simp [size]
  | tuple items => exact size_lt_of_mem_tuple h
  | grouping key value =>
    simp only [components, List.mem_cons, List.not_mem_nil, or_false] at h
    rcases h with rfl | rfl <;> simp only [size] <;> omega
  | record type =>
    obtain ⟨field, hfield, rfl⟩ := List.mem_map.mp h
    exact size_lt_of_mem_record hfield
  | _ => cases h

end Ty

/-- Where all types mentioned that are the `same` are equal, there is a naming that they are all
    `Named` over. -/
theorem Naming.exists_of_eq_of_same {mentioned : Ty → Prop}
    (hparts : ∀ t, mentioned t → ∀ child ∈ t.components, mentioned child)
    (heq : ∀ a b, mentioned a → mentioned b → (a == b) = true → a = b) :
    ∃ names : Naming, ∀ t, mentioned t → t.Named names := by
  classical
  -- A name stands for the declared type of the name that is mentioned, if there is one.
  let names : Naming :=
    { enum := fun name =>
        if h : ∃ e : EnumType, mentioned (.enum e) ∧ e.name = name then h.choose else ⟨name, []⟩
      record := fun name kind =>
        if h : ∃ r : RecordType, mentioned (.record r) ∧ r.name = name ∧ r.kind = kind then h.choose
        else ⟨name, kind, []⟩ }
  have hdeclares : ∀ t, mentioned t → names.Declares t := by
    intro t ht
    cases t with
    | enum e =>
      have hexists : ∃ e' : EnumType, mentioned (.enum e') ∧ e'.name = e.name := ⟨e, ht, rfl⟩
      have hsame : (Ty.enum hexists.choose == Ty.enum e) = true := by
        show (hexists.choose.name == e.name) = true
        rw [hexists.choose_spec.2, beq_self_eq_true]
      -- The type that was chosen for the name is the same as this one, and so it is this one.
      have hchosen := heq _ _ hexists.choose_spec.1 ht hsame
      simpa [Naming.Declares, names, hexists] using hchosen
    | record r =>
      have hexists : ∃ r' : RecordType, mentioned (.record r') ∧ r'.name = r.name ∧
          r'.kind = r.kind := ⟨r, ht, rfl, rfl⟩
      have hsame : (Ty.record hexists.choose == Ty.record r) = true := by
        show (hexists.choose.name == r.name && hexists.choose.kind == r.kind) = true
        rw [hexists.choose_spec.2.1, hexists.choose_spec.2.2, beq_self_eq_true, beq_self_eq_true]
        rfl
      have hchosen := heq _ _ hexists.choose_spec.1 ht hsame
      simpa [Naming.Declares, names, hexists] using hchosen
    | _ => trivial
  refine ⟨names, fun t ht => ?_⟩
  -- Components are smaller, so what holds of mentioned types holds at every depth.
  induction hsize : t.size using Nat.strong_induction_on generalizing t with
  | _ size ih =>
    refine .intro (hdeclares t ht) fun child hchild => ?_
    exact ih child.size (hsize ▸ Ty.size_lt_of_mem_components hchild) child
      (hparts t ht child hchild) rfl

namespace Value

/-- `runtimeTypes` of items are `runtimeType` of single items. -/
theorem runtimeTypes_eq_map (items : List Value) :
    runtimeTypes items = items.map runtimeType := by
  induction items with
  | nil => rfl
  | cons item rest ih => rw [runtimeTypes, ih, List.map_cons]

/-- The `runtimeType` of a value over a naming is a type over the naming. -/
theorem Named.runtimeType {v : Value} (h : v.Named names) : v.runtimeType.Named names := by
  induction h with
  | @intro v top rest ih =>
    cases v with
    | enum e n => exact top
    | record r fields => exact top
    | tuple items =>
      rw [Value.runtimeType, Ty.named_tuple, runtimeTypes_eq_map]
      intro t ht
      obtain ⟨item, hitem, rfl⟩ := List.mem_map.mp ht
      exact ih item hitem
    -- What is in a container is not part of its runtime type.
    | list items | map entries | grouping groups => simp [Value.runtimeType]
    | _ => exact Ty.named_of_leaf rfl trivial

/-! ## Equality of values -/

/-- `same` on values is symmetric where it holds. -/
private theorem same_symm {a b : Value} (h : same a b = true) : same b a = true := by
  revert h
  apply same.induct (fun a b => same a b = true → same b a = true)
    (fun as bs => sameGroups as bs = true → sameGroups bs as = true)
    (fun as bs => sameEntries as bs = true → sameEntries bs as = true)
    (fun as bs => sameItems as bs = true → sameItems bs as = true)
  -- Numbers are compared by value and records by their types too. The other cases are those of
  -- the parts.
  case case6 | case7 =>
    intro x y h
    simp only [same] at h ⊢
    rwa [Binary.beq_comm]
  case case19 =>
    intro r as s bs ih h
    simp only [same, Ty.same, Bool.and_eq_true, beq_iff_eq] at h ⊢
    exact ⟨⟨h.1.1.symm, h.1.2.symm⟩, ih h.2⟩
  all_goals intros; simp_all [same, sameGroups, sameItems, sameEntries]

theorem same_comm (a b : Value) : (a == b) = (b == a) :=
  Bool.eq_iff_iff.mpr ⟨same_symm, same_symm⟩

/-- A value that another one equals has no `NaN` inside, and so it equals itself under `==`. -/
theorem same_self {a b : Value} (h : (a == b) = true) : (b == b) = true := by
  have h : same a b = true := h
  show same b b = true
  revert h
  apply same.induct (fun a b => same a b = true → same b b = true)
    (fun as bs => sameGroups as bs = true → sameGroups bs bs = true)
    (fun as bs => sameEntries as bs = true → sameEntries bs bs = true)
    (fun as bs => sameItems as bs = true → sameItems bs bs = true)
  -- Floats are equal to themselves unless they are no numbers.
  case case6 | case7 =>
    intro x y h
    simp only [same] at h ⊢
    exact Binary.beq_self_of_beq h
  -- Of two equal records both have types that are equal to themselves.
  case case19 =>
    intro r as s bs ih h
    simp only [same, Bool.and_eq_true] at h ⊢
    exact ⟨Ty.same_refl _, ih h.2⟩
  all_goals intros; simp_all [same, sameGroups, sameItems, sameEntries]

end Value

end DocQuery
