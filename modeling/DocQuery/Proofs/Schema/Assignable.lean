import DocQuery.Proofs.Codec.Join

/-!
# What is assignable to what

A source may be used as a target with at least as many options around it. Inside the options a
dynamic type takes every type; any other takes itself, an offset time takes an instant, and of the
number types it takes those of which it has all numbers. Each of these relations can be chained, and
so can assignability.

## Key results

- `Ty.includes_iff_covers`, `Ty.keepsExactly_iff_covers`: the tables of number types say where all
  numbers of one type are numbers of another
- `Ty.isAssignableFrom_iff`: assignability by the options of two types and what stands inside them
- `Ty.isAssignableFrom_preorder`: assignability is reflexive and transitive
-/

namespace DocQuery.Ty

variable {a b c target source : Ty} {kind : IntKind} {F : Format}

/-! ## Numbers of types -/

/-- Some finite value of the type is the exact number: for a whole number type one that its kind
    `Holds`, for a floating point type one by `toRat?`. -/
def HasNumber : Ty → Rat → Prop
  | int kind, q => ∃ n : kind.Number, (n.val : Rat) = q
  | f32, q => ∃ x : Binary32, x.toRat? = some q
  | f64, q => ∃ x : Binary64, x.toRat? = some q
  | _, _ => False

/-- Every number of the source, in the sense of `HasNumber`, is a number of the target. -/
def Covers (target source : Ty) : Prop := ∀ q, source.HasNumber q → target.HasNumber q

/-- The number types are those with `HasNumber` zero. -/
theorem isNumeric_iff_hasNumber_zero : a.isNumeric = true ↔ a.HasNumber 0 := by
  have hzero {F : Format} (hF : F.Valid) : ∃ x : Binary F, x.toRat? = some 0 :=
    (Binary.exists_toRat?_eq_iff hF).mpr (Rat.abs_zero ▸ hF.keeps_zero)
  cases a with
  | int kind => exact iff_of_true rfl ⟨kind.zero, Int.cast_zero⟩
  | f32 => exact iff_of_true rfl (hzero Format.single_valid)
  | f64 => exact iff_of_true rfl (hzero Format.double_valid)
  | _ => exact iff_of_false Bool.false_ne_true id

/-- Only a number type `Covers` a number type. -/
theorem Covers.isNumeric (h : a.Covers b) (hb : b.isNumeric = true) : a.isNumeric = true :=
  isNumeric_iff_hasNumber_zero.mpr (h 0 (isNumeric_iff_hasNumber_zero.mp hb))

/-- Among whole number types `includes` compares the bounds, and that decides whether one `Covers`
    the other. -/
theorem includes_iff_covers {target source : IntKind} :
    target.includes source = true ↔ (int target).Covers (int source) := by
  simp only [IntKind.includes, Bool.and_eq_true, decide_eq_true_eq]
  constructor
  · rintro ⟨hleast, hgreatest⟩ q ⟨n, rfl⟩
    exact ⟨⟨n.val, hleast.trans n.property.1, n.property.2.trans hgreatest⟩, rfl⟩
  · -- The bounds are numbers of the source themselves.
    intro h
    have hbounds : source.Holds source.least ∧ source.Holds source.greatest := by
      cases source <;> decide
    obtain ⟨⟨m, hm⟩, hleast⟩ := h source.least ⟨⟨_, hbounds.1⟩, rfl⟩
    obtain ⟨⟨n, hn⟩, hgreatest⟩ := h source.greatest ⟨⟨_, hbounds.2⟩, rfl⟩
    obtain rfl := Int.cast_inj.mp hleast
    obtain rfl := Int.cast_inj.mp hgreatest
    exact ⟨hm.1, hn.2⟩

/-- A format has all numbers of a whole number type where the greatest is below
    `2 ^ F.precision`. -/
theorem forall_exists_toRat?_iff (hF : F.Valid) (hmin : F.minExp ≤ 0) (hmax : 1 ≤ F.maxExp) :
    (∀ q, (int kind).HasNumber q → ∃ x : Binary F, x.toRat? = some q) ↔
      kind.greatest < 2 ^ F.precision := by
  have hbounds : kind.Holds kind.greatest ∧ Odd kind.greatest.natAbs ∧ 0 ≤ kind.greatest ∧
      -(kind.greatest + 1) ≤ kind.least := by
    cases kind <;> decide
  obtain ⟨hholds, hodd, hpos, hleast⟩ := hbounds
  simp only [Binary.exists_toRat?_eq_iff hF]
  constructor
  · -- The greatest number is odd, so a format that has it keeps all of its bits.
    intro h
    by_contra hlarge
    have hkeeps := h _ ⟨⟨_, hholds⟩, rfl⟩
    rw [Binary.abs_intCast] at hkeeps
    refine Binary.not_keeps_of_odd hodd ?_ hkeeps
    zify
    rw [abs_of_nonneg hpos]
    exact not_lt.mp hlarge
  · -- The least number may have one bit more, but then it is a power of two.
    rintro h q ⟨n, rfl⟩
    obtain ⟨hlow, hhigh⟩ := n.property
    rw [Binary.abs_intCast]
    refine Binary.keeps_natCast hF.precision_pos hmin hmax ?_
    zify
    rw [abs_le]
    omega

/-- A floating point type `keepsExactly` a whole number type where it `Covers` it, and the other
    types keep none. -/
theorem keepsExactly_iff_covers (hint : ∀ k, target ≠ int k) :
    target.keepsExactly kind = true ↔ target.Covers (int kind) := by
  cases target with
  | int k => exact absurd rfl (hint k)
  | f32 =>
    refine Iff.trans ?_ (forall_exists_toRat?_iff Format.single_valid (by decide) (by decide)).symm
    -- The powers of two against the greatest numbers of all eight types, which is the table of
    -- `keepsExactly`.
    cases kind <;> decide
  | f64 =>
    refine Iff.trans ?_ (forall_exists_toRat?_iff Format.double_valid (by decide) (by decide)).symm
    cases kind <;> decide
  | _ => exact iff_of_false Bool.false_ne_true fun h => Bool.false_ne_true (h.isNumeric rfl)

theorem covers_f64_f32 : f64.Covers f32 :=
  fun _ ⟨x, hx⟩ => ⟨x.convert _, (Binary.toRat?_convert_double x).trans hx⟩

/-- The narrow floating point type does not cover the wide one: it lacks `2 ^ 24 + 1`, the first odd
    number past its bits. -/
theorem not_covers_f32_f64 : ¬f32.Covers f64 := by
  intro h
  have hwide : f64.HasNumber ((16777217 : Int) : Rat) := ⟨_, Binary.toRat?_ofInt (by decide)⟩
  have hkeeps := (Binary.exists_toRat?_eq_iff Format.single_valid).mp (h _ hwide)
  rw [Binary.abs_intCast] at hkeeps
  exact Binary.not_keeps_of_odd (by decide) (by decide) hkeeps

/-- No whole number type covers a floating point type, which has the number `1 / 2`. -/
theorem not_covers_int_of_isFloat (h : source.isFloat = true) : ¬(int kind).Covers source := by
  intro hcovers
  have habs : (1 / 2 : Rat).abs = (1 : Nat) * 2 ^ (-1 : Int) := by
    -- One half has a single bit, at the exponent -1.
    rw [Rat.abs_of_nonneg (by norm_num)]
    norm_num
  have hhalf : source.HasNumber (1 / 2) := by
    cases source with
    | f32 => exact (Binary.exists_toRat?_eq_iff Format.single_valid).mpr ⟨1, -1, habs, by decide⟩
    | f64 => exact (Binary.exists_toRat?_eq_iff Format.double_valid).mpr ⟨1, -1, habs, by decide⟩
    | _ => cases h
  obtain ⟨n, hn⟩ := hcovers _ hhalf
  -- An integer would be one half.
  have hdouble : 2 * n.val = 1 := by
    have hcast : (2 * n.val : Rat) = 1 := by rw [hn]; norm_num
    exact_mod_cast hcast
  omega

/-- What `Covers` a floating point type is that type itself or, for the narrow one, the wide one. -/
theorem eq_or_wide_of_covers (h : target.Covers source) (hsource : source.isFloat = true) :
    target = source ∨ target = f64 ∧ source = f32 := by
  have htarget : target.isNumeric = true := h.isNumeric (by simp [isNumeric, hsource])
  -- What covers a float type is a number type, and no integer type.
  cases target with
  | int kind => exact absurd h (not_covers_int_of_isFloat hsource)
  | f32 =>
    cases source with
    | f32 => exact .inl rfl
    | f64 => exact absurd h not_covers_f32_f64
    | _ => cases hsource
  | f64 =>
    cases source with
    | f32 => exact .inr ⟨rfl, rfl⟩
    | f64 => exact .inl rfl
    | _ => cases hsource
  | _ => cases htarget

/-- A number type is `Named` over every naming. -/
theorem named_of_isNumeric {names : Naming} (h : a.isNumeric = true) : a.Named names := by
  cases a with
  | int | f32 | f64 => exact named_of_leaf rfl trivial
  | _ => cases h

/-! ## What types take -/

/-- What a type takes that is neither an option nor dynamic: a type that is the same, an instant for
    an offset time, and the number types that it `Covers`. -/
inductive Takes : Ty → Ty → Prop where
  | same {a b : Ty} (h : a.same b = true) : Takes a b
  | time : Takes zoned instant
  | number {a b : Ty} (hb : b.isNumeric = true) (h : a.Covers b) : Takes a b

namespace Takes

theorem refl (a : Ty) : Takes a a := .same (same_refl a)

/-- Only the dynamic type `Takes` a dynamic one; the check for it comes before all others. -/
theorem eq_dynamic (h : Takes a dynamic) : a = dynamic := by
  cases h with
  | same h => exact eq_of_same_undeclared named_dynamic h
  | number hb => cases hb

/-- Of the number types a type `Takes` those that it `Covers`. -/
theorem iff_covers (hb : b.isNumeric = true) : Takes a b ↔ a.Covers b := by
  refine ⟨fun h => ?_, .number hb⟩
  cases h with
  | same h =>
    obtain rfl := eq_of_same_undeclared (named_of_isNumeric hb) h
    exact fun _ => id
  | time => cases hb
  | number _ h => exact h

/-- `Takes` is transitive. -/
theorem trans (hab : Takes a b) (hbc : Takes b c) : Takes a c := by
  have hzoned : zoned.Named .undeclared := named_of_leaf rfl trivial
  have hinstant : instant.Named .undeclared := named_of_leaf rfl trivial
  -- Times and number types are the same as themselves only, so what is the same is replaced.
  cases hab with
  | same hab =>
    -- What is the same as the first type can be put in its place.
    cases hbc with
    | same hbc => exact .same (same_trans hab hbc)
    | time =>
      obtain rfl := eq_of_same_undeclared hzoned hab
      exact .time
    | number hc h =>
      obtain rfl := eq_of_same_undeclared (named_of_isNumeric (h.isNumeric hc)) hab
      exact .number hc h
  | time =>
    -- Nothing but an instant goes into an offset time, and no number goes into an instant.
    cases hbc with
    | same hbc =>
      obtain rfl := eq_of_same_undeclared hinstant (same_symm hbc)
      exact .time
    | number hc h => cases h.isNumeric hc
  | number hb h =>
    -- What is the same as a number type is that type.
    cases hbc with
    | same hbc =>
      obtain rfl := eq_of_same_undeclared (named_of_isNumeric hb) (same_symm hbc)
      exact .number hb h
    | time => cases hb
    | number hc h' => exact .number hc fun q hq => h q (h' q hq)

end Takes

/-! ## Options -/

/-- The `core` of a type that is no option is the type. -/
theorem core_of_ne_option (h : ∀ x, a ≠ option x) : a.core = a := by
  fun_cases core a with
  | case1 inner => exact absurd rfl (h inner)
  | case2 => rfl

/-- A type has no `options` where it is no option itself. -/
theorem options_eq_zero_iff : a.options = 0 ↔ ∀ x, a ≠ option x := by
  cases a with
  | option inner => exact iff_of_false (Nat.succ_ne_zero _) fun h => h inner rfl
  | _ => exact iff_of_true rfl nofun

/-- Types that are the same have as many `options`, around types that are the same. -/
theorem same_core (h : a.same b = true) : a.options = b.options ∧ a.core.same b.core = true := by
  fun_induction core a generalizing b with
  | case1 inner ih =>
    cases b with
    | option x => exact (ih h).imp_left (congrArg Nat.succ)
    | _ => cases h
  | case2 a hne =>
    -- Only an option is the same as an option.
    have hne' : ∀ x, b ≠ option x := by
      rintro x rfl
      cases a with
      | option y => exact hne y rfl
      | _ => cases h
    rw [options_eq_zero_iff.mpr hne, options_eq_zero_iff.mpr hne', core_of_ne_option hne']
    exact ⟨rfl, h⟩

theorem int_ne_option (x : Ty) : int kind ≠ option x := nofun

/-- Without options only `Takes` is left of the relation in `isAssignableFrom_iff`. -/
theorem takes_core_iff (htarget : ∀ x, target ≠ option x) (hsource : ∀ x, source ≠ option x)
    (hdynamic : target ≠ dynamic) :
    (target.core = dynamic ∨ source.options ≤ target.options ∧ target.core.Takes source.core) ↔
      target.Takes source := by
  rw [core_of_ne_option htarget, core_of_ne_option hsource, options_eq_zero_iff.mpr hsource]
  simp [hdynamic]

/-! ## Assignability -/

/-- A type is assignable from another where it is dynamic inside its options, or it has at least as
    many `options` and `Takes` the other inside them, in its `core`. -/
theorem isAssignableFrom_iff : target.isAssignableFrom source = true ↔
    target.core = dynamic ∨ source.options ≤ target.options ∧ target.core.Takes source.core := by
  -- Options come off the target one by one, those of the source with them while there are any.
  fun_induction isAssignableFrom target source with
  | case1 target source hsame =>
    obtain ⟨hoptions, hcore⟩ := same_core hsame
    exact iff_of_true rfl (.inr ⟨hoptions.ge, .same hcore⟩)
  | case2 => exact iff_of_true rfl (.inl rfl)
  -- An option comes off both sides.
  | case3 target inner _ ih => rw [ih, options, options, Nat.succ_le_succ_iff, core, core]
  -- The source has no option left, so one comes off the target only.
  | case4 target source hne _ ih =>
    rw [ih, options, options_eq_zero_iff.mpr hne, core]
    simp only [Nat.zero_le]
  | case5 => exact iff_of_true rfl (.inr ⟨le_rfl, .time⟩)
  | case6 => exact iff_of_true rfl (.inr ⟨le_rfl, .number rfl covers_f64_f32⟩)
  | case7 target source =>
    calc target.includes source = true
        ↔ (int target).Covers (int source) := includes_iff_covers
      _ ↔ (int target).Takes (int source) := (Takes.iff_covers rfl).symm
      _ ↔ _ := (takes_core_iff int_ne_option int_ne_option fun h => by cases h).symm
  | case8 target source hdynamic hoption hint =>
    calc target.keepsExactly source = true
        ↔ target.Covers (int source) := keepsExactly_iff_covers hint
      _ ↔ target.Takes (int source) := (Takes.iff_covers rfl).symm
      _ ↔ _ := (takes_core_iff hoption int_ne_option hdynamic).symm
  | case9 target source hne hdynamic hoption hint _ htime hwide _ =>
    -- Nothing else is taken: of all other number types some number is missing in the target.
    refine iff_of_false Bool.false_ne_true fun h => ?_
    by_cases hsource : ∀ x, source ≠ option x
    · cases (takes_core_iff hoption hsource hdynamic).mp h with
      | same h => exact hne h
      | time => exact htime rfl rfl
      | number hnumeric h =>
        have hfloat : source.isFloat = true := by
          cases source with
          | int kind => exact absurd rfl (hint kind)
          | _ => exact hnumeric
        rcases eq_or_wide_of_covers h hfloat with rfl | ⟨htarget, hsource⟩
        · exact hne (same_refl _)
        · exact hwide htarget hsource
    · -- An option is left over that the target does not have.
      rw [core_of_ne_option hoption, options_eq_zero_iff.mpr hoption] at h
      rcases h with h | ⟨hoptions, -⟩
      · exact hdynamic h
      · exact hsource (options_eq_zero_iff.mp (Nat.le_zero.mp hoptions))

/-- `isAssignableFrom` is reflexive and transitive. -/
theorem isAssignableFrom_preorder :
    (∀ a : Ty, a.isAssignableFrom a = true) ∧
      ∀ a b c : Ty, a.isAssignableFrom b = true → b.isAssignableFrom c = true →
        a.isAssignableFrom c = true := by
  refine ⟨fun a => isAssignableFrom_iff.mpr (.inr ⟨le_rfl, .refl _⟩), fun a b c hab hbc => ?_⟩
  rw [isAssignableFrom_iff] at hab hbc ⊢
  rcases hab with ha | ⟨hoptions, htakes⟩
  · exact .inl ha
  · rcases hbc with hb | ⟨hoptions', htakes'⟩
    · -- What takes a dynamic type is dynamic itself.
      exact .inl (hb ▸ htakes).eq_dynamic
    · exact .inr ⟨hoptions'.trans hoptions, htakes.trans htakes'⟩

/-- `isAssignableFrom_preorder` at two chains: a whole number goes through the narrow format into
    the wide one, and an optional instant through a dynamic value, each with an option more around
    it. -/
theorem isAssignableFrom_preorder_optional :
    ((option (option f64)).isAssignableFrom (option f32) = true ∧
      (option f32).isAssignableFrom (int .u16) = true ∧
      (option dynamic).isAssignableFrom dynamic = true ∧
      dynamic.isAssignableFrom (option instant) = true) ∧
    (option (option f64)).isAssignableFrom (int .u16) = true ∧
      (option dynamic).isAssignableFrom (option instant) = true :=
  ⟨⟨by decide, by decide, by decide, by decide⟩,
    isAssignableFrom_preorder.2 _ (option f32) _ (by decide) (by decide),
    isAssignableFrom_preorder.2 _ dynamic _ (by decide) (by decide)⟩

end DocQuery.Ty
