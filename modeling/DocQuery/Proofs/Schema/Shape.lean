import DocQuery.Proofs.Codec.Leaf
import DocQuery.Proofs.Schema.Cast
import DocQuery.Proofs.Schema.Conform

/-!
# Shapes of converted values

A conversion looks at the outermost kind of a value only. A value that has the shape of the target
is taken as it is, whatever it holds; a value that is made conforms to the target.

## Key results

- `Value.Conforms.hasShape`: values of a type have its shape
- `Value.cast_eq_self_iff`: conversions keep exactly the values of the target's shape
- `Value.cast_delivers`: what conversions deliver
-/

namespace DocQuery

namespace Value

/-- A value is of the outermost kind that a type says. What it holds may be anything, as values do
    not say of which types their parts are; `Conforms` asks for these, too. -/
def HasShape (v : Value) : Ty → Prop
  | .option inner => v = null ∨ v.HasShape inner
  | .enum type => ∃ other n, v = enum other n ∧ other.name = type.name
  | .list _ => v = null ∨ ∃ items, v = list items
  | .map _ => v = null ∨ ∃ entries, v = map entries
  | .tuple types => ∃ items, v = tuple items ∧ items.length = types.length
  | .grouping _ _ => v = null ∨ ∃ groups, v = grouping groups
  | .record type => v = null ∨ ∃ other fields, v = record other fields ∧ other.name = type.name
  | target => v.Conforms target

variable {v w : Value} {t : Ty}

/-- A value that `Conforms` to a type has its shape. -/
theorem Conforms.hasShape (h : v.Conforms t) : v.HasShape t := by
  fun_induction HasShape v t with
  -- An option, whose value may be null.
  | case1 inner ih =>
    cases h with
    | null => exact .inl rfl
    | option h => exact .inr (ih h)
  -- Enumerations and tuples are never null.
  | case2 type =>
    cases h with
    | null nullable => cases nullable
    | enum _ n => exact ⟨type, n, rfl, rfl⟩
  -- Of lists, maps and groupings only the container is looked at.
  | case3 | case4 | case6 =>
    cases h with
    | null => exact .inl rfl
    | _ => exact .inr ⟨_, rfl⟩
  | case5 types =>
    cases h with
    | null nullable => cases nullable
    | tuple places => exact ⟨_, rfl, places.length_eq.symm⟩
  -- Of records the name is.
  | case7 type =>
    cases h with
    | null => exact .inl rfl
    | record => exact .inr ⟨_, _, rfl, rfl⟩
  | case8 => exact h

/-- `null` has the shape of the types with `isNullable`. -/
theorem hasShape_null : null.HasShape t ↔ t.isNullable = true := by
  refine ⟨fun h => ?_, fun h => Conforms.hasShape (.null h)⟩
  cases t with
  | option | list | map | grouping | record | binary | dynamic => rfl
  -- Enumerations and tuples have a constructor of values of their own.
  | enum =>
    obtain ⟨_, _, hnull, -⟩ := h
    cases hnull
  | tuple =>
    obtain ⟨_, hnull, -⟩ := h
    cases hnull
  | _ => exact conforms_null.mp h

/-- A value whose `runtimeType` has the key of a type has the shape of the type. -/
theorem hasShape_of_key (h : v.runtimeType.key = t.key) : v.HasShape t := by
  cases t with
  | list | map | grouping =>
    cases v <;> cases h
    exact .inr ⟨_, rfl⟩
  | enum type =>
    cases v with
    | enum other n => exact ⟨other, n, rfl, TypeKey.enum.inj h⟩
    | _ => cases h
  -- The key of a tuple holds the number of its items.
  | tuple types =>
    cases v with
    | tuple items =>
      refine ⟨items, rfl, ?_⟩
      simpa [runtimeType, runtimeTypes_eq_map, Ty.key] using h
    | _ => cases h
  | record type =>
    cases v with
    | record other fields => exact .inr ⟨other, fields, rfl, TypeKey.record.inj h⟩
    | _ => cases h
  -- No value has an option as its runtime type.
  | option => cases v <;> cases h
  | dynamic => exact .dynamic v
  -- The other types have one constructor of values each.
  | _ =>
    cases v <;> cases h
    constructor

/-- What `sameKind` lets through has the shape of the target. -/
theorem hasShape_of_sameKind (h : sameKind v t = .ok w) : v.HasShape t := by
  unfold sameKind at h
  -- The value passes as a null of a nullable type or through its own key.
  split_ifs at h with hnull hkey
  · obtain ⟨hnull, hnullable⟩ := Bool.and_eq_true_iff.mp hnull
    cases v with
    | null => exact Conforms.hasShape (.null hnullable)
    | _ => cases hnull
  · exact hasShape_of_key hkey

theorem sameKind_of_key (h : v.runtimeType.key = t.key) : sameKind v t = .ok v := by
  unfold sameKind
  split_ifs <;> rfl

/-- `cast` keeps `null` where the target has `isNullable`. -/
theorem cast_null (h : t.isNullable = true) : null.cast t = .ok null := by
  cases t with
  | option | dynamic => rfl
  | binary | list | map | grouping | record => simp [cast, sameKind, isNull, h]
  | _ => cases h

/-- What `cast` makes has the shape of the target; it is the value itself, or it conforms to the
    target. -/
theorem hasShape_of_cast (h : v.cast t = .ok w) : w.HasShape t ∧ (w = v ∨ w.Conforms t) := by
  fun_induction Value.cast v t with
  -- The dynamic type keeps the value; an option keeps null and casts the rest.
  | case1 =>
    obtain rfl := Except.ok.inj h
    exact ⟨.dynamic v, .inl rfl⟩
  | case2 =>
    obtain rfl := Except.ok.inj h
    exact ⟨.inl rfl, .inr (.null rfl)⟩
  | case3 inner _ ih =>
    obtain ⟨hshape, hw⟩ := ih h
    exact ⟨.inr hshape, hw.imp_right .option⟩
  -- A whole number in the range of the kind is cast to it.
  | case4 kind n =>
    obtain ⟨hn, rfl⟩ := integer_eq_ok_iff.mp h
    exact ⟨.int kind _, .inr (.int kind _)⟩
  -- No number, so no number type takes it.
  | case5 | case7 | case9 => cases h
  | case6 x =>
    obtain rfl := Except.ok.inj h
    exact ⟨.f32 _, .inr (.f32 _)⟩
  | case8 x =>
    obtain rfl := Except.ok.inj h
    exact ⟨.f64 x, .inr (.f64 x)⟩
  -- An instant becomes one with a zone.
  | case10 t =>
    obtain rfl := Except.ok.inj h
    exact ⟨.zoned _, .inr (.zoned _)⟩
  -- Whatever is inside, a value of the kind of the target is not looked at any further.
  | case11 | case12 =>
    obtain rfl := eq_of_sameKind h
    exact ⟨hasShape_of_sameKind h, .inl rfl⟩

/-- `cast` keeps exactly the values that have the shape of the target. -/
theorem cast_eq_self_iff : v.cast t = .ok v ↔ v.HasShape t := by
  refine ⟨fun h => (hasShape_of_cast h).1, fun h => ?_⟩
  fun_induction HasShape v t with
  | case1 inner ih =>
    rw [cast]
    split
    · rename_i hnull
      cases v <;> first | rfl | cases hnull
    · rename_i hsome
      rcases h with rfl | h
      · exact absurd rfl hsome
      · exact ih h
  | case2 type =>
    obtain ⟨other, n, rfl, hname⟩ := h
    exact sameKind_of_key (congrArg TypeKey.enum hname)
  | case3 | case4 | case6 =>
    rcases h with rfl | ⟨_, rfl⟩
    · exact cast_null rfl
    · exact sameKind_of_key rfl
  | case5 types =>
    obtain ⟨items, rfl, hlength⟩ := h
    refine sameKind_of_key ?_
    simp [runtimeType, runtimeTypes_eq_map, Ty.key, hlength]
  | case7 type =>
    rcases h with rfl | ⟨other, fields, rfl, hname⟩
    · exact cast_null rfl
    · exact sameKind_of_key (congrArg TypeKey.record hname)
  -- The rest are types whose shape is that of a value that conforms.
  | case8 target hoption henum hlist hmap htuple hgrouping hrecord =>
    cases h with
    | null nullable => exact cast_null nullable
    | int kind n => exact integer_eq_ok_iff.mpr ⟨n.property, rfl⟩
    -- A narrow number goes into the wide format and back.
    | f32 x => exact congrArg (fun x => Except.ok (f32 x)) (Binary.convert_convert x)
    | enum => exact (henum _ rfl).elim
    | option => exact (hoption _ rfl).elim
    | list => exact (hlist _ rfl).elim
    | map => exact (hmap _ rfl).elim
    | tuple => exact (htuple _ rfl).elim
    | grouping => exact (hgrouping _ _ rfl).elim
    | record => exact (hrecord _ rfl).elim
    | f64 | dynamic => rfl
    | _ => exact sameKind_of_key rfl

/-- A finite number that `cast` converts to a numeric type stays finite. The narrow format is asked
    only to keep numbers that are not past `greatestSingle`. -/
theorem isFinite_of_cast {x : Binary64} (hx : v.asFloat? = some x) (hfinite : x.isFinite = true)
    (hnumeric : t.isNumeric = true)
    (hsingle : t = .f32 → Codec.Leaf.greatestSingle.lt x.abs = false) (h : v.cast t = .ok w) :
    ∃ y, w.asFloat? = some y ∧ y.isFinite = true := by
  cases t with
  -- An integer is finite, whatever it was cast from.
  | int kind =>
    rw [cast] at h
    split at h
    · obtain ⟨hn, rfl⟩ := integer_eq_ok_iff.mp h
      exact ⟨_, rfl, (Binary.bounded_number ⟨_, hn⟩).isFinite⟩
    · cases h
  -- A double stays finite where it is not above the greatest single.
  | f32 =>
    simp only [cast, hx] at h
    obtain rfl := Except.ok.inj h
    exact ⟨_, rfl,
      Binary.isFinite_convert_double (Codec.isFinite_convert_single hfinite (hsingle rfl))⟩
  | f64 =>
    simp only [cast, hx] at h
    obtain rfl := Except.ok.inj h
    exact ⟨x, rfl, hfinite⟩
  | _ => cases hnumeric

/-- What `cast` delivers has the shape of the target, and is null only where null means absence. It
    is the value itself, or it `Conforms` to the target at every depth. A finite number that is
    converted to a numeric type stays finite, where it is not past `greatestSingle` in a conversion
    to the narrow format. -/
theorem cast_delivers {v w : Value} {t : Ty} (h : v.cast t = .ok w) :
    w.HasShape t ∧ (w = null → t.isNullable = true) ∧ (w = v ∨ w.Conforms t) ∧
      ∀ x, v.asFloat? = some x → x.isFinite = true → t.isNumeric = true →
        (t = .f32 → Codec.Leaf.greatestSingle.lt x.abs = false) →
          ∃ y, w.asFloat? = some y ∧ y.isFinite = true := by
  obtain ⟨hshape, hsource⟩ := hasShape_of_cast h
  refine ⟨hshape, ?_, hsource, ?_⟩
  · rintro rfl
    exact hasShape_null.mp hshape
  · intro x hx hfinite hnumeric hsingle
    exact isFinite_of_cast hx hfinite hnumeric hsingle h

/-- `cast_delivers` at the number 5, from 64 bits to 8. -/
theorem cast_delivers_five :
    (int .i64 ⟨5, by decide⟩).cast (.int .i8) = .ok (int .i8 ⟨5, by decide⟩) ∧
      (int .i8 ⟨5, by decide⟩).HasShape (.int .i8) ∧
      ∃ y, (int .i8 ⟨5, by decide⟩).asFloat? = some y ∧ y.isFinite = true := by
  have hcast : (int .i64 ⟨5, by decide⟩).cast (.int .i8) = .ok (int .i8 ⟨5, by decide⟩) := rfl
  have hfinite : (Binary.ofInt 5 : Binary64).isFinite = true := by decide +kernel
  obtain ⟨hshape, -, -, hnumber⟩ := cast_delivers hcast
  exact ⟨hcast, hshape, hnumber _ rfl hfinite rfl (fun h => by cases h)⟩

/-- `cast` takes a list of strings for a list of numbers, to which it does not conform. -/
theorem not_cast_conforms :
    (list [string "a"]).cast (.list (.int .i32)) = .ok (list [string "a"]) ∧
      ¬ (list [string "a"]).Conforms (.list (.int .i32)) := by
  refine ⟨rfl, fun h => ?_⟩
  cases h with
  | list elements => cases elements _ (.head _)

end Value

end DocQuery
