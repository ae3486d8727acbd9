import DocQuery.Proofs.Schema.Naming
import DocQuery.Schema.Cast

/-!
# What conversions make

A conversion keeps the value that it is given, or it makes a number, a time or null of it. It makes
no container and no value of a declared type.
-/

namespace DocQuery.Value

variable {v w : Value} {t : Ty}

/-- Neither a container nor of a declared type: a value with no `parts` that no naming can be
    about. -/
def Atomic : Value → Prop
  | enum _ _ | list _ | map _ | tuple _ | grouping _ | record _ _ => False
  | _ => True

theorem Atomic.parts_eq_nil (h : v.Atomic) : v.parts = [] := by
  cases v <;> first | rfl | cases h

/-- An `Atomic` value carries no declared type, so it is `Named` over every naming. -/
theorem Atomic.named (h : v.Atomic) (names : Naming) : v.Named names :=
  .of_leaf h.parts_eq_nil (by cases v <;> trivial)

/-- `integer` makes a whole number a value exactly where the kind `Holds` it. -/
theorem integer_eq_ok_iff {kind : IntKind} {n : Int} :
    integer (.int kind) n = .ok v ↔ ∃ h : kind.Holds n, v = .int kind ⟨n, h⟩ := by
  unfold integer
  by_cases h : kind.Holds n
  · simp [h, eq_comm]
  · simp [h]

/-- `integer` makes a whole number a value for a whole number type only. -/
theorem atomic_of_integer {n : Int} (h : integer t n = .ok w) : w.Atomic := by
  unfold integer at h
  split at h
  · split at h
    · obtain rfl := Except.ok.inj h
      trivial
    · cases h
  · cases h

/-- `sameKind` does not change a value of the kind of the target. -/
theorem eq_of_sameKind (h : sameKind v t = .ok w) : w = v := by
  unfold sameKind at h
  split_ifs at h
  · exact (Except.ok.inj h).symm
  · exact (Except.ok.inj h).symm

/-- A value that `cast` gives is the value itself or `Atomic`. -/
theorem eq_or_atomic_of_cast (h : v.cast t = .ok w) : w = v ∨ w.Atomic := by
  -- The cases are those of `cast`: a dynamic type keeps everything, an option hands the value on,
  -- and the last two keep what is of the kind of the target.
  fun_induction Value.cast v t with
  | case1 => exact .inl (Except.ok.inj h).symm
  | case3 _ _ ih => exact ih h
  | case4 => exact .inr (atomic_of_integer h)
  | case5 | case7 | case9 => cases h
  | case11 | case12 => exact .inl (eq_of_sameKind h)
  | case2 | case6 | case8 | case10 =>
    obtain rfl := Except.ok.inj h
    exact .inr trivial

end DocQuery.Value
