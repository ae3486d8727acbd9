import Mathlib.Order.Bounds.Basic
import DocQuery.Proofs.Codec.Infer

/-!
# Common types as least upper bounds

Types are ordered by what holds more: a dynamic value is the least that is known, `i64` widens to
`f64`, and an option holds what it is an option of. The common type of two types that documents have
by themselves is their least upper bound, so the item type of an array is that of a set: it depends
neither on the order of the items nor on how often each occurs.

## Key results

- `Ty.isLUB_of_unify`, `Ty.exists_unify_of_le`: the common type is the least upper bound, and there
  is one where the types have any upper bound
- `Datum.inferItems_eq_ok_iff`: the type of the rest of an array by the set of its item types
- `Datum.inferType_array_congr`: arrays with the same items have the same type
-/

namespace DocQuery

namespace Ty

/-! ## The order of types -/

/-- What is of the first type is also of the second, or can be widened to it. `Widens` is the order
    of `Ty`, with `dynamic` as its least element. -/
inductive Widens : Ty → Ty → Prop where
  | refl (a : Ty) : Widens a a
  | dynamic (b : Ty) : Widens dynamic b
  | number : Widens (int .i64) f64
  | list {a b : Ty} (h : Widens a b) : Widens (list a) (list b)
  | option {a b : Ty} (h : Widens a b) : Widens (option a) (option b)
  | present {a b : Ty} (h : Widens a b) : Widens a (option b)

/-- How many `option`s stand around a type. -/
def options : Ty → Nat
  | option inner => inner.options + 1
  | _ => 0

namespace Widens

variable {a b c : Ty}

/-- Only `dynamic` widens to `dynamic`. -/
theorem eq_dynamic (h : Widens a .dynamic) : a = .dynamic := by
  cases h <;> rfl

/-- What widens to a `list` is `dynamic` or a `list` whose items widen. -/
theorem of_list (h : Widens a (.list b)) : a = .dynamic ∨ ∃ x, a = .list x ∧ Widens x b := by
  cases h with
  | refl => exact .inr ⟨b, rfl, .refl b⟩
  | dynamic => exact .inl rfl
  | list h => exact .inr ⟨_, rfl, h⟩

/-- What widens to an `option` widens to what is inside, or is an `option` whose inner type does. -/
theorem of_option (h : Widens a (.option b)) : Widens a b ∨ ∃ x, a = .option x ∧ Widens x b := by
  cases h with
  | refl => exact .inr ⟨b, rfl, .refl b⟩
  | dynamic => exact .inl (.dynamic b)
  | option h => exact .inr ⟨_, rfl, h⟩
  | present h => exact .inl h

/-- Widening is transitive. The induction is on the second step, whose constructor says what the
    first one can be. -/
theorem trans (hab : Widens a b) (hbc : Widens b c) : Widens a c := by
  induction hbc generalizing a with
  | refl => exact hab
  | dynamic b =>
    rw [hab.eq_dynamic]
    exact .dynamic b
  -- To an integer type nothing is widened but the type itself and the dynamic one.
  | number =>
    cases hab with
    | refl => exact .number
    | dynamic => exact .dynamic _
  | list _ ih =>
    -- To a list only lists are widened and the dynamic type.
    rcases hab.of_list with rfl | ⟨x, rfl, hx⟩
    · exact .dynamic _
    · exact .list (ih hx)
  -- An option is reached from what is inside it, too.
  | option _ ih =>
    rcases hab.of_option with h | ⟨x, rfl, hx⟩
    · exact .present (ih h)
    · exact .option (ih hx)
  | present _ ih => exact .present (ih hab)

/-- What an `option` widens to is an `option`, of something the inner type widens to. -/
theorem exists_of_option (h : Widens (.option a) b) : ∃ w, b = .option w ∧ Widens a w := by
  -- The index has to be a variable for the induction, and `ha` remembers which type it was.
  generalize ha : Ty.option a = s at h
  induction h with
  | refl => exact ⟨a, ha.symm, .refl a⟩
  | option h =>
    cases ha
    exact ⟨_, rfl, h⟩
  | present _ ih =>
    obtain ⟨w, rfl, hw⟩ := ih ha
    exact ⟨_, rfl, .present hw⟩
  | dynamic => cases ha
  | number => cases ha
  | list => cases ha

/-- Widening takes no `option` away, so `options` grows along it. -/
theorem options_le (h : Widens a b) : a.options ≤ b.options := by
  induction h with
  | refl => exact le_rfl
  | option _ ih => exact Nat.succ_le_succ ih
  | present _ ih => exact Nat.le_succ_of_le ih
  | dynamic | number | list => exact Nat.zero_le _

/-- Types that widen to each other are equal. -/
theorem antisymm (hab : Widens a b) (hba : Widens b a) : a = b := by
  induction hab with
  | refl => rfl
  | dynamic b => exact hba.eq_dynamic.symm
  | number => cases hba
  | list _ ih =>
    rcases hba.of_list with h | ⟨x, hx, h⟩
    · cases h
    · cases hx
      rw [ih h]
  | option hxy ih =>
    rcases hba.of_option with h | ⟨x, hx, h⟩
    · -- What is inside the option widens to it, so the two inner types also widen to each other.
      rw [ih (trans (.present (.refl _)) h)]
    · cases hx
      rw [ih h]
  | present _ ih =>
    -- An option around its own inner type cannot widen back, since `options` would have to shrink.
    obtain rfl := ih (trans (.present (.refl _)) hba)
    exact absurd hba.options_le (Nat.not_succ_le_self _)

end Widens

/-- Types are ordered by `Widens`. -/
instance : PartialOrder Ty where
  le := Widens
  le_refl := .refl
  le_trans := fun _ _ _ => .trans
  le_antisymm := fun _ _ => Widens.antisymm


variable {a b c u : Ty}

theorem dynamic_le (t : Ty) : dynamic ≤ t := .dynamic t

/-- A whole number is also a number of any other kind. -/
theorem number_le : int .i64 ≤ f64 := .number

theorem list_le_list (h : a ≤ b) : list a ≤ list b := .list h

theorem option_le_option (h : a ≤ b) : option a ≤ option b := .option h

/-- A type is below an `option` where it is below what is inside. -/
theorem le_option_of_le (h : a ≤ b) : a ≤ option b := .present h

/-- What is below an `option` without being one is below what is inside. -/
theorem le_of_le_option (h : a ≤ option u) (hoption : ∀ x, a ≠ option x) : a ≤ u := by
  rcases Widens.of_option h with hinner | ⟨x, rfl, -⟩
  · exact hinner
  · exact absurd rfl (hoption x)

/-- What stands inside all `option`s around a type. -/
def core : Ty → Ty
  | option inner => inner.core
  | t => t

/-- The `core` of a type is no `option`. -/
theorem core_ne_option (t x : Ty) : t.core ≠ option x := by
  fun_induction core t with
  | case1 inner ih => exact ih
  | case2 t hne => exact hne x

/-- The `core` of a type is below it. -/
theorem core_le (t : Ty) : t.core ≤ t := by
  fun_induction core t with
  | case1 inner ih => exact le_option_of_le ih
  | case2 => exact le_rfl

/-- What is below `u` without being an `option` is below the `core` of `u`. -/
theorem le_core (h : a ≤ u) (hoption : ∀ x, a ≠ option x) : a ≤ u.core := by
  fun_induction core u with
  | case1 inner ih =>
    exact ih (le_of_le_option h hoption)
  | case2 => exact h

/-- How a type widens to one that is no `option`: by equality, from `i64` to `f64`, or as a
    `list`. -/
theorem le_cases (h : a ≤ u) (hdynamic : a ≠ dynamic) (hoption : ∀ x, u ≠ option x) :
    a = u ∨ (a = int .i64 ∧ u = f64) ∨ ∃ x y, a = list x ∧ u = list y ∧ x ≤ y := by
  cases h with
  | refl => exact .inl rfl
  | dynamic => exact absurd rfl hdynamic
  | number => exact .inr (.inl ⟨rfl, rfl⟩)
  | list h => exact .inr (.inr ⟨_, _, rfl, rfl, h⟩)
  -- Neither of the two options is `u`, which is none.
  | option => exact absurd rfl (hoption _)
  | present => exact absurd rfl (hoption _)

/-- A `list` is only below lists with options around them, so the `core` of what is above it is a
    list. -/
theorem exists_core_of_list_le (h : list a ≤ u) : ∃ w, u.core = list w ∧ a ≤ w := by
  -- Below an option, a list lies below what is inside.
  have hcore : list a ≤ u.core := le_core h fun _ hx => by cases hx
  rcases le_cases hcore (fun hx => by cases hx) (core_ne_option u) with heq | ⟨hx, -⟩ |
    ⟨x, y, hx, hy, hle⟩
  · exact ⟨a, heq.symm, le_rfl⟩
  · cases hx
  · cases hx
    exact ⟨y, hy, hle⟩

/-! ## Common types are least upper bounds -/

/-- Both types are below their common type `c`, if they are types that documents have by
    themselves. -/
theorem le_of_unify (h : a.unify b = some c) (ha : a.Inferable) (hb : b.Inferable) :
    a ≤ c ∧ b ≤ c := by
  fun_induction unify a b generalizing c with
  -- Sameness ignores the types a record declares, so it is equality only where there are none.
  | case1 a b hsame =>
    obtain rfl := Option.some.inj h
    obtain rfl := eq_of_same_undeclared hb.named hsame
    exact ⟨le_rfl, le_rfl⟩
  | case2 =>
    obtain rfl := Option.some.inj h
    exact ⟨dynamic_le _, le_rfl⟩
  | case3 =>
    obtain rfl := Option.some.inj h
    exact ⟨le_rfl, dynamic_le _⟩
  | case4 =>
    obtain rfl := Option.some.inj h
    exact ⟨number_le, le_rfl⟩
  | case5 =>
    obtain rfl := Option.some.inj h
    exact ⟨le_rfl, number_le⟩
  | case6 x y _ ih =>
    obtain ⟨inner, hinner, rfl⟩ := Option.map_eq_some_iff.mp h
    obtain ⟨hx, hy⟩ := ih hinner (inferable_list.mp ha) (inferable_list.mp hb)
    exact ⟨list_le_list hx, list_le_list hy⟩
  | case7 x y _ ih =>
    obtain ⟨inner, hinner, rfl⟩ := Option.map_eq_some_iff.mp h
    obtain ⟨hx, hy⟩ := ih hinner (inferable_option.mp ha) (inferable_option.mp hb)
    exact ⟨option_le_option hx, option_le_option hy⟩
  -- An option and something else: the result is an option, which is above both.
  | case8 x other _ _ _ ih =>
    obtain ⟨inner, hinner, rfl⟩ := Option.map_eq_some_iff.mp h
    obtain ⟨hx, hother⟩ := ih hinner (inferable_option.mp ha) hb
    exact ⟨option_le_option hx, le_option_of_le hother⟩
  | case9 other x _ _ _ ih =>
    obtain ⟨inner, hinner, rfl⟩ := Option.map_eq_some_iff.mp h
    obtain ⟨hx, hother⟩ := ih hinner (inferable_option.mp hb) ha
    exact ⟨le_option_of_le hother, option_le_option hx⟩
  | case10 => cases h

/-- Two types below `u` have a common type, and it is below `u` as well. The cases are those of
    `unify`. -/
theorem exists_unify_of_le (ha : a ≤ u) (hb : b ≤ u) : ∃ c, a.unify b = some c ∧ c ≤ u := by
  fun_induction unify a b generalizing u with
  | case1 a b => exact ⟨a, rfl, ha⟩
  | case2 b => exact ⟨b, rfl, hb⟩
  | case3 a => exact ⟨a, rfl, ha⟩
  | case4 => exact ⟨f64, rfl, hb⟩
  | case5 => exact ⟨f64, rfl, ha⟩
  | case6 x y _ ih =>
    -- Both lists end up in the one list inside the options of `u`, and so does their common type.
    obtain ⟨w, hw, hx⟩ := exists_core_of_list_le ha
    obtain ⟨w', hw', hy⟩ := exists_core_of_list_le hb
    obtain rfl : w = w' := by
      rw [hw] at hw'
      cases hw'
      rfl
    obtain ⟨inner, hinner, hle⟩ := ih hx hy
    refine ⟨list inner, by rw [hinner]; rfl, ?_⟩
    calc list inner ≤ list w := list_le_list hle
      _ = u.core := hw.symm
      _ ≤ u := core_le u
  | case7 x y _ ih =>
    -- What is above an option is an option itself, and the bound for the inner types lies inside.
    obtain ⟨w, rfl, hx⟩ := Widens.exists_of_option ha
    obtain ⟨w', hw', hy⟩ := Widens.exists_of_option hb
    cases hw'
    obtain ⟨inner, hinner, hle⟩ := ih hx hy
    exact ⟨option inner, by rw [hinner]; rfl, option_le_option hle⟩
  | case8 x other _ hother _ ih =>
    obtain ⟨w, rfl, hx⟩ := Widens.exists_of_option ha
    obtain ⟨inner, hinner, hle⟩ := ih hx (le_of_le_option hb hother)
    exact ⟨option inner, by rw [hinner]; rfl, option_le_option hle⟩
  | case9 other x _ hother _ ih =>
    obtain ⟨w, rfl, hx⟩ := Widens.exists_of_option hb
    obtain ⟨inner, hinner, hle⟩ := ih hx (le_of_le_option ha hother)
    exact ⟨option inner, by rw [hinner]; rfl, option_le_option hle⟩
  | case10 a b hne hdynamic hoption hdynamic' hoption' hnumber hnumber' hlist _ =>
    -- Both widen to the same inside all options, so they are equal, numbers or lists.
    have hcore := le_cases (le_core ha hoption) hdynamic (core_ne_option u)
    have hcore' := le_cases (le_core hb hoption') hdynamic' (core_ne_option u)
    exfalso
    rcases hcore with ha | ⟨ha, hu⟩ | ⟨x, w, ha, hu, -⟩ <;>
      rcases hcore' with hb | ⟨hb, hu'⟩ | ⟨y, w', hb, hu', -⟩
    · exact hne (by rw [ha, hb]; exact same_refl _)
    · exact hnumber' (ha.trans hu') hb
    · exact hlist w' y (ha.trans hu') hb
    · exact hnumber ha (hb.trans hu)
    · exact hne (by rw [ha, hb]; exact same_refl _)
    · cases hu.symm.trans hu'
    · exact hlist x w ha (hb.trans hu)
    · cases hu.symm.trans hu'
    · exact hlist x y ha hb

/-- The common type of two types that documents have by themselves is their least upper bound in the
    order of `Ty`. -/
theorem isLUB_of_unify (h : a.unify b = some c) (ha : a.Inferable) (hb : b.Inferable) :
    IsLUB {a, b} c := by
  obtain ⟨hac, hbc⟩ := le_of_unify h ha hb
  refine ⟨by simp [upperBounds, hac, hbc], fun u hu => ?_⟩
  obtain ⟨c', hc', hle⟩ := exists_unify_of_le (hu (.inl rfl)) (hu (.inr rfl))
  obtain rfl := Option.some.inj (h.symm.trans hc')
  exact hle

/-- What a set of types has in common: `none` where it is empty, and else its least upper bound. -/
def Joins (S : Set Ty) : Option Ty → Prop
  | none => S = ∅
  | some t => S.Nonempty ∧ IsLUB S t

variable {S : Set Ty} {joined joined' : Option Ty}

/-- There is at most one thing a set of types has in common, by the uniqueness of least upper
    bounds. -/
theorem Joins.unique (h : Joins S joined) (h' : Joins S joined') : joined = joined' := by
  -- Without a common type there is nothing to join, and otherwise two least bounds agree.
  cases joined with
  | none =>
    cases joined' with
    | none => rfl
    | some t => exact absurd h h'.1.ne_empty
  | some t =>
    cases joined' with
    | none => exact absurd h' h.1.ne_empty
    | some t' => rw [h.2.unique h'.2]

theorem joins_empty : Joins ∅ joined ↔ joined = none :=
  ⟨fun h => h.unique rfl, fun h => h ▸ rfl⟩

theorem joins_singleton : Joins {a} joined ↔ joined = some a :=
  ⟨fun h => h.unique ⟨Set.singleton_nonempty a, isLUB_singleton⟩,
    fun h => h ▸ ⟨Set.singleton_nonempty a, isLUB_singleton⟩⟩

/-- In a set, two types may be replaced with their common type `c`: the upper bounds stay the same,
    so `Joins` does. -/
theorem joins_insert_unify (h : a.unify b = some c) (ha : a.Inferable) (hb : b.Inferable) :
    Joins (insert a (insert b S)) joined ↔ Joins (insert c S) joined := by
  have hbounds : upperBounds (insert a (insert b S)) = upperBounds (insert c S) := by
    rw [← Set.singleton_union, ← Set.singleton_union, ← Set.union_assoc, upperBounds_union,
      Set.singleton_union, (isLUB_of_unify h ha hb).upperBounds_eq, upperBounds_insert]
  cases joined with
  | none => exact iff_of_false (Set.insert_nonempty a _).ne_empty (Set.insert_nonempty c S).ne_empty
  | some t => simp only [Joins, IsLUB, hbounds, Set.insert_nonempty, true_and]

/-- A set with two types that have no common type has no upper bound, so it `Joins` nothing. -/
theorem not_joins_of_unify_eq_none (h : a.unify b = none) :
    ¬Joins (insert a (insert b S)) joined := by
  cases joined with
  | none => exact (Set.insert_nonempty a _).ne_empty
  | some t =>
    rintro ⟨-, ht⟩
    -- The bound of all types bounds the two, which then have a common type.
    obtain ⟨c, hc, -⟩ := exists_unify_of_le (ht.1 (.inl rfl)) (ht.1 (.inr (.inl rfl)))
    rw [h] at hc
    cases hc

end Ty

namespace Datum

/-! ## Item types of arrays -/

/-- The types of the items that are not null, as a set. -/
def itemTypes (items : List Datum) : Set Ty :=
  {t | ∃ item ∈ items, item.isNull = false ∧ item.inferType = .ok t}

/-- Every item that is not null has a type of its own. -/
def Typed (items : List Datum) : Prop :=
  ∀ item ∈ items, item.isNull = false → ∃ t, item.inferType = .ok t

/-- The types of the items so far, of which `common` is what `inferItems` has kept, and of those to
    come. -/
def typesWith (common : Option Ty) (items : List Datum) : Set Ty :=
  {t | t ∈ common} ∪ itemTypes items

variable {item : Datum} {rest : List Datum} {type : Ty} {common : Option Ty}

theorem itemTypes_nil : itemTypes [] = ∅ := by
  simp [itemTypes]

/-- A null adds no type to `itemTypes`. -/
theorem itemTypes_null (h : item.isNull = true) : itemTypes (item :: rest) = itemTypes rest := by
  simp [itemTypes, h]

/-- An item that is not null adds its type to `itemTypes`. -/
theorem itemTypes_cons (hnull : item.isNull = false) (htype : item.inferType = .ok type) :
    itemTypes (item :: rest) = insert type (itemTypes rest) := by
  ext t
  simp only [itemTypes, List.mem_cons, exists_eq_or_imp, Set.mem_ofPred_eq, Set.mem_insert_iff,
    hnull, htype, true_and, Except.ok.injEq]
  rw [eq_comm]

/-- Before the first item that is not null, `typesWith` is just the types to come. -/
theorem typesWith_none (items : List Datum) : typesWith none items = itemTypes items := by
  simp [typesWith]

/-- The common type so far counts as one more type among those to come. -/
theorem typesWith_some (current : Ty) (items : List Datum) :
    typesWith (some current) items = insert current (itemTypes items) := by
  ext t
  simp [typesWith, eq_comm]

/-- After the last item, the common type so far is what all the types have in common. -/
theorem joins_typesWith_nil {joined : Option Ty} :
    Ty.Joins (typesWith common []) joined ↔ joined = common := by
  cases common with
  | none => rw [typesWith_none, itemTypes_nil, Ty.joins_empty]
  | some current =>
    rw [typesWith_some, itemTypes_nil, insert_empty_eq, Ty.joins_singleton]

/-- The rest of an array has a type if, and only if, its items have types with something in common,
    and `itemType` of that is the type of its items. The accumulator `common` counts as one more
    item. -/
theorem inferItems_eq_ok_iff {sawNull : Bool} {items : List Datum} {t : Ty}
    (hcommon : ∀ s ∈ common, s.Inferable) :
    inferItems sawNull common items = .ok t ↔
      Typed items ∧ ∃ joined, Ty.Joins (typesWith common items) joined ∧
        t = .list (itemType (sawNull || items.any isNull) joined) := by
  induction items generalizing sawNull common with
  | nil =>
    have htyped : Typed [] := List.forall_mem_nil _
    simp only [inferItems, Except.ok.injEq, joins_typesWith_nil, exists_eq_left, htyped, true_and,
      List.any_nil, Bool.or_false]
    exact eq_comm
  | cons item rest ih =>
    cases hnull : item.isNull with
    | true =>
      -- A null only sets the flag: it neither has a type of its own nor changes those of the
      -- others.
      rw [inferItems, if_pos hnull, ih hcommon]
      simp [Typed, typesWith, itemTypes_null hnull, hnull]
    | false =>
      rw [inferItems, if_neg (by simp [hnull])]
      cases htype : item.inferType with
      -- An item without a type is an error on one side and breaks `Typed` on the other.
      | error e =>
        refine iff_of_false (fun h => by cases h) ?_
        rintro ⟨htyped, -⟩
        obtain ⟨type, hok⟩ := htyped item (.head _) hnull
        rw [htype] at hok
        cases hok
      | ok type =>
        have hinferable : type.Inferable := inferable_of_inferType htype
        have htyped : Typed (item :: rest) ↔ Typed rest := by simp [Typed, hnull, htype]
        rw [htyped, List.any_cons, hnull, Bool.false_or]
        cases common with
        | none =>
          rw [typesWith_none, itemTypes_cons hnull htype, ← typesWith_some]
          refine ih fun s hs => ?_
          rwa [← Option.mem_some.mp hs]
        | some current =>
          have hcurrent : current.Inferable := hcommon current rfl
          rw [typesWith_some, itemTypes_cons hnull htype]
          simp only [bind, Except.bind]
          cases hunify : current.unify type with
          | none =>
            -- Types that cannot be unified have no upper bound, so there is nothing they have in
            -- common.
            refine iff_of_false (fun h => by cases h) ?_
            rintro ⟨-, joined, hjoined, -⟩
            exact Ty.not_joins_of_unify_eq_none hunify hjoined
          | some common =>
            -- The two types in the set become the one that `inferItems` goes on with.
            simp only [Ty.joins_insert_unify hunify hcurrent hinferable]
            rw [← typesWith_some]
            refine ih fun s hs => ?_
            rw [← Option.mem_some.mp hs]
            exact Ty.inferable_of_unify hunify hcurrent hinferable

/-- The type of an array is determined by `itemTypes` and by whether there is a null among the
    items. -/
theorem inferType_array_eq_ok_iff {items : List Datum} {t : Ty} :
    (array items).inferType = .ok t ↔
      Typed items ∧ ∃ joined, Ty.Joins (itemTypes items) joined ∧
        t = .list (itemType (items.any isNull) joined) := by
  rw [inferType, inferItems_eq_ok_iff (fun _ h => by cases h), typesWith_none, Bool.false_or]

/-- Arrays with the same items, in any order and each any number of times, have the same
    `inferType`. -/
theorem inferType_array_congr {items items' : List Datum} (h : ∀ d, d ∈ items ↔ d ∈ items')
    (t : Ty) : (array items).inferType = .ok t ↔ (array items').inferType = .ok t := by
  -- Both sides depend on the items as a set: whether there is a null, whether all have types,
  -- which.
  have hnull : items.any isNull = items'.any isNull := by
    rw [Bool.eq_iff_iff, List.any_eq_true, List.any_eq_true]
    simp only [h]
  have htyped : Typed items ↔ Typed items' := forall_congr' fun d => by rw [h]
  have htypes : itemTypes items = itemTypes items' := by
    ext s
    simp only [itemTypes, h]
  rw [inferType_array_eq_ok_iff, inferType_array_eq_ok_iff, hnull, htyped, htypes]

/-- The whole number `1` has the type `i64`. -/
theorem inferType_one : (number 1).inferType = .ok (.int .i64) := by
  have hsafe : (safeInteger? 1).isSome = true := by decide +kernel
  rw [inferType, hsafe]
  rfl

/-- The fraction `1 / 2` has the type `f64`. -/
theorem inferType_half : (number (.ofRat (1 / 2))).inferType = .ok .f64 := by
  have hsafe : (safeInteger? (.ofRat (1 / 2))).isSome = false := by decide +kernel
  rw [inferType, hsafe]
  rfl

/-- A null, a whole number and a fraction, in an order other than that of `hitems` and with a
    repetition. -/
theorem inferType_array_congr_numbers :
    (array [number (.ofRat (1 / 2)), number 1, null, number 1]).inferType =
      .ok (.list (.option .f64)) := by
  -- Both lists have the same members, so order and repetition are put aside first.
  have hitems : ∀ d, d ∈ [null, number 1, number (.ofRat (1 / 2))] ↔
      d ∈ [number (.ofRat (1 / 2)), number 1, null, number 1] := by
    intro d
    simp only [List.mem_cons, List.not_mem_nil, or_false]
    tauto
  refine (inferType_array_congr hitems _).mp ?_
  -- The two numbers join to the type of floats.
  have hwidened : (Ty.int .i64).unify .f64 = some .f64 := by
    rw [Ty.unify]
    rfl
  have hhalf := inferType_half
  generalize (Binary.ofRat (1 / 2) : Binary64) = half at hhalf ⊢
  -- On the shorter list inference runs by its equations.
  rw [inferType]
  simp [inferItems, inferType_one, hhalf, hwidened, isNull, itemType, Ty.isNullable, bind,
    Except.bind]

end Datum

end DocQuery
