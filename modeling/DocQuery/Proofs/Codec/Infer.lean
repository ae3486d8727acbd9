import DocQuery.Codec.Infer
import DocQuery.Proofs.Schema.Naming
import DocQuery.Proofs.Sequence

/-!
# The types that documents have by themselves

The inferred type of a document is built from few kinds of types. None of them goes by a name, so it
is a type over every naming.

## Key results

- `Ty.inferable_of_unify`: common types of such types are such types
- `Datum.inferable_of_inferType`: the inferred type of a document is such a type
- `Datum.named_of_inferType`: the inferred type of a document is a type over every naming
- `Datum.inferType_ne_option`, `Datum.eq_null_of_inferType`: what the inferred type is not
-/

namespace DocQuery

variable {names : Naming}

namespace Ty

/-- The kinds of types that documents have by themselves. -/
def InferableNode : Ty → Prop
  | bool | int .i64 | f64 | string | zoned | binary | dynamic => True
  | option _ | list _ | map _ | grouping _ _ => True
  | _ => False

/-- A type that is built from types of these kinds only. -/
abbrev Inferable : Ty → Prop := Everywhere components InferableNode

/-- An `Inferable` type is over every naming, as none of its kinds goes by a name. -/
theorem Inferable.named {t : Ty} (h : t.Inferable) : t.Named names :=
  h.imp fun t ht => by cases t <;> trivial

theorem inferable_option {t : Ty} : (option t).Inferable ↔ t.Inferable :=
  ⟨fun h => h.at_part (.head _), fun h => .intro trivial (by simpa [components] using h)⟩

theorem inferable_list {t : Ty} : (list t).Inferable ↔ t.Inferable :=
  ⟨fun h => h.at_part (.head _), fun h => .intro trivial (by simpa [components] using h)⟩

/-- What two `Inferable` types `unify` to is `Inferable`. -/
theorem inferable_of_unify {a b c : Ty} (h : a.unify b = some c) (ha : a.Inferable)
    (hb : b.Inferable) : c.Inferable := by
  -- Equal and numeric types are leaves or given; containers unify in their parts.
  fun_induction unify a b generalizing c with
  | case1 a b hsame => rwa [← Option.some.inj h]
  | case2 => rwa [← Option.some.inj h]
  | case3 => rwa [← Option.some.inj h]
  | case4 => rwa [← Option.some.inj h]
  | case5 => rwa [← Option.some.inj h]
  | case6 x y _ ih =>
    obtain ⟨inner, hinner, rfl⟩ := Option.map_eq_some_iff.mp h
    exact inferable_list.mpr (ih hinner (inferable_list.mp ha) (inferable_list.mp hb))
  | case7 x y _ ih =>
    obtain ⟨inner, hinner, rfl⟩ := Option.map_eq_some_iff.mp h
    exact inferable_option.mpr (ih hinner (inferable_option.mp ha) (inferable_option.mp hb))
  -- One of the two is an option, so the common type is one, too.
  | case8 x other _ _ _ ih =>
    obtain ⟨inner, hinner, rfl⟩ := Option.map_eq_some_iff.mp h
    exact inferable_option.mpr (ih hinner (inferable_option.mp ha) hb)
  | case9 other x _ _ _ ih =>
    obtain ⟨inner, hinner, rfl⟩ := Option.map_eq_some_iff.mp h
    exact inferable_option.mpr (ih hinner (inferable_option.mp hb) ha)
  | case10 => cases h

end Ty

namespace Datum

/-- The `itemType` of an array is `Inferable` where the common type of its items is. -/
theorem inferable_itemType {common : Option Ty} (h : ∀ t ∈ common, t.Inferable) (sawNull : Bool) :
    (itemType sawNull common).Inferable := by
  have hdynamic : Ty.dynamic.Inferable := .of_leaf rfl trivial
  -- Without a common type the items are dynamic; a null among them makes options.
  cases common with
  | none =>
    cases sawNull with
    | true => exact Ty.inferable_option.mpr hdynamic
    | false => exact hdynamic
  | some t =>
    have ht : t.Inferable := h t rfl
    rw [itemType]
    split
    · exact Ty.inferable_option.mpr ht
    · exact ht

/-- The `inferType` of an object is that of its tag or a map, which are `Inferable`. -/
theorem inferable_of_inferType_object {members : List (String × Datum)} {t : Ty}
    (h : (object members).inferType = .ok t) : t.Inferable := by
  have hdynamic : Ty.dynamic.Inferable := .of_leaf rfl trivial
  rw [inferType] at h
  split at h
  · split_ifs at h <;> cases h
    · exact .of_leaf rfl trivial
    · exact .of_leaf rfl trivial
    · -- A grouping and a map hold dynamic values.
      exact .intro trivial (by simpa [Ty.components] using hdynamic)
  · cases h
    exact .intro trivial (by simpa [Ty.components] using hdynamic)

/-- The `inferType` of a document is `Inferable`. -/
theorem inferable_of_inferType {d : Datum} {t : Ty} (h : d.inferType = .ok t) : t.Inferable := by
  revert t
  -- Along an array the common type so far stays such a type.
  apply inferType.induct (fun d => ∀ {t : Ty}, d.inferType = .ok t → t.Inferable)
    fun sawNull common items => (∀ t ∈ common, t.Inferable) →
      ∀ {t : Ty}, inferItems sawNull common items = .ok t → t.Inferable
  -- An array has the type of its items, with none in common at first.
  case case5 =>
    intro items ih t h
    rw [inferType] at h
    exact ih (fun _ ht => by cases ht) h
  -- At the end of an array the type is a list of the common type, or of options of it.
  case case11 =>
    intro sawNull common hcommon t h
    rw [inferItems, Except.ok.injEq] at h
    rw [← h]
    exact Ty.inferable_list.mpr (inferable_itemType hcommon sawNull)
  -- A null is passed over.
  case case12 =>
    intro sawNull common item rest hnull ih hcommon t h
    rw [inferItems, if_pos hnull] at h
    exact ih hcommon h
  -- An item that is not null joins its type to the common type so far.
  case case13 =>
    intro sawNull common item rest hnull ihitem ihrest hcommon t h
    rw [inferItems, if_neg hnull] at h
    cases hitem : item.inferType with
    | error e => rw [hitem] at h; cases h
    | ok type =>
      have htype : type.Inferable := ihitem hitem
      rw [hitem] at h
      -- The first such item gives the common type, and a later one is joined with it.
      cases common with
      | none => exact ihrest type (fun _ ht => Option.mem_some.mp ht ▸ htype) h
      | some current =>
        have hcurrent : current.Inferable := hcommon current rfl
        simp only [bind, Except.bind] at h
        cases hunify : current.unify type with
        | none => rw [hunify] at h; cases h
        | some joined =>
          rw [hunify] at h
          have hjoined : joined.Inferable := Ty.inferable_of_unify hunify hcurrent htype
          exact ihrest joined (fun _ ht => Option.mem_some.mp ht ▸ hjoined) h
  -- Numbers and the other plain datums have leaf types.
  case case3 =>
    intro x t h
    rw [inferType, Except.ok.injEq] at h
    rw [← h]
    split <;> exact .of_leaf rfl trivial
  case case1 | case2 | case4 =>
    intros
    rename_i h
    rw [inferType, Except.ok.injEq] at h
    rw [← h]
    exact .of_leaf rfl trivial
  -- What is left are objects with a known tag, with another one and with none.
  all_goals
    intros
    rename_i h
    exact inferable_of_inferType_object h

/-- The `inferType` of a document is over every naming. -/
theorem named_of_inferType {d : Datum} {t : Ty} (h : d.inferType = .ok t) : t.Named names :=
  (inferable_of_inferType h).named

/-! ## Shapes -/

/-- `inferItems` gives a list type. -/
theorem exists_of_inferItems {sawNull : Bool} {common : Option Ty} {items : List Datum}
    {t : Ty} (h : inferItems sawNull common items = .ok t) : ∃ element, t = .list element := by
  -- Induction on the items, for any common type so far.
  induction items generalizing sawNull common with
  | nil =>
    rw [inferItems] at h
    exact ⟨_, (Except.ok.inj h).symm⟩
  | cons item rest ih =>
    rw [inferItems] at h
    split at h
    · exact ih h
    · -- An item that is not null is joined with the common type, or the array is refused.
      obtain ⟨type, -, h⟩ := Sequence.exists_of_bind_eq_ok h
      cases common with
      | none => exact ih h
      | some current =>
        dsimp only at h
        split at h
        · exact ih h
        · cases h

/-- The `inferType` of a document is not an option. -/
theorem inferType_ne_option {d : Datum} {t : Ty} (h : d.inferType = .ok t) (inner : Ty) :
    t ≠ .option inner := by
  cases d with
  | array items =>
    rw [inferType] at h
    obtain ⟨element, rfl⟩ := exists_of_inferItems h
    exact fun h => by cases h
  | object members =>
    rw [inferType] at h
    split at h
    · -- A known tag gives a leaf type or a grouping, and an object without tag a map.
      split_ifs at h <;> cases h <;> exact fun h => by cases h
    · cases h
      exact fun h => by cases h
  | number x =>
    rw [inferType, Except.ok.injEq] at h
    rw [← h]
    split <;> exact fun h => by cases h
  | _ =>
    rw [inferType] at h
    cases h
    exact fun h => by cases h

theorem eq_null_of_isNull {d : Datum} (h : d.isNull = true) : d = .null := by
  cases d <;> first | rfl | cases h

/-- Only `null` has the dynamic type for its `inferType`. -/
theorem eq_null_of_inferType {d : Datum} (h : d.inferType = .ok .dynamic) : d = .null := by
  cases d with
  | null => rfl
  | array items =>
    -- An array is a list, which the dynamic type is not.
    rw [inferType] at h
    obtain ⟨element, hlist⟩ := exists_of_inferItems h
    cases hlist
  | object members =>
    rw [inferType] at h
    -- Neither an object nor a number has the dynamic type.
    split at h
    · split_ifs at h <;> cases h
    · cases h
  | number x =>
    rw [inferType, Except.ok.injEq] at h
    split at h <;> cases h
  | _ =>
    rw [inferType] at h
    cases h

end Datum

end DocQuery
