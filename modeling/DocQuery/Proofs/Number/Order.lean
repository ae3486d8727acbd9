import DocQuery.Proofs.Number.Bounds

/-!
# Places of floating point numbers

A floating point number that is a number stands on the line of rational numbers with an end on
either side. Comparisons read nothing but these places, and so they are a linear order in which the
two zeros are one.

## Key results

- `cmp_follows`: what two comparisons in a row say of the third
- `Binary.compare?_eq_some_iff`: numbers are compared as their places are
- `Binary.beq_iff_place?`: numbers are equal where they have one place
- `Binary.exists_place?_number`: whole numbers have finite places, in their order
-/

namespace DocQuery

/-! ## Three results of a linear order -/

/-- The third of three comparisons, after two that go up: it is not `.gt`, and it is `.lt` where one
    of them is. -/
def Ordering.Follows (first second third : Ordering) : Prop :=
  third ≠ .gt ∧ (first = .lt ∨ second = .lt → third = .lt)

/-- Where the third of three comparisons is not `.lt`, neither of the first two is. -/
theorem Ordering.Follows.eq_of_ne_lt {first second third : Ordering}
    (h : Follows first second third) (hfirst : first ≠ .gt) (hsecond : second ≠ .gt)
    (hne : third ≠ .lt) : first = .eq ∧ second = .eq := by
  have hfirst' : first ≠ .lt := fun hlt => hne (h.2 (.inl hlt))
  have hsecond' : second ≠ .lt := fun hlt => hne (h.2 (.inr hlt))
  constructor
  · cases first <;> simp_all
  · cases second <;> simp_all

theorem cmp_ne_gt_iff {α : Type*} [LinearOrder α] {x y : α} : cmp x y ≠ .gt ↔ x ≤ y := by
  rw [ne_eq, cmp_eq_gt_iff, not_lt]

/-- Comparisons `cmp` of a linear order follow each other, in the sense of `Ordering.Follows`. -/
theorem cmp_follows {α : Type*} [LinearOrder α] {x y z : α} (hxy : cmp x y ≠ .gt)
    (hyz : cmp y z ≠ .gt) : Ordering.Follows (cmp x y) (cmp y z) (cmp x z) := by
  rw [cmp_ne_gt_iff] at hxy hyz
  refine ⟨cmp_ne_gt_iff.mpr (hxy.trans hyz), ?_⟩
  simp only [cmp_eq_lt_iff]
  -- One strict step makes the whole strict.
  rintro (hlt | hlt)
  · exact hlt.trans_le hyz
  · exact hxy.trans_lt hlt

namespace Binary

variable {F : Format} {x y : Binary F}

/-! ## Places -/

/-- Where a number stands, with `⊥` and `⊤` for the infinities; `nan` stands nowhere. -/
def place? : Binary F → Option (WithBotTop ℚ)
  | nan => none
  | infinity negative => some (if negative then ⊥ else ⊤)
  | finite negative mant exp _ => some (exact negative mant exp : ℚ)

/-- A finite number stands at its exact value, that of `toRat?`. -/
theorem place?_of_toRat? {q : ℚ} (h : x.toRat? = some q) : x.place? = some ↑q := by
  obtain ⟨n, m, e, hme, rfl, rfl⟩ := exists_finite_of_toRat? h
  rfl

/-- `compare?` on numbers is `cmp` on their places, and only numbers with places are compared. -/
theorem compare?_eq_some_iff {o : Ordering} :
    x.compare? y = some o ↔ ∃ p q, x.place? = some p ∧ y.place? = some q ∧ cmp p q = o := by
  -- The case split is the one of `compare?`, with the ends of the line for the infinities.
  cases x with
  | nan => simp [compare?, place?]
  | infinity a =>
    cases y with
    | nan => simp [compare?, place?]
    | infinity b => cases a <;> cases b <;> simp [compare?, place?] <;> rfl
    | finite nb mb eb hb =>
      cases a <;>
        simp [compare?, place?, cmp, cmpUsing, bot_lt_iff_ne_bot, lt_top_iff_ne_top]
  | finite na ma ea ha =>
    cases y with
    | nan => simp [compare?, place?]
    | infinity b =>
      cases b <;>
        simp [compare?, place?, cmp, cmpUsing, bot_lt_iff_ne_bot, lt_top_iff_ne_top]
    | finite nb mb eb hb => simp [compare?, place?, cmp, cmpUsing]

/-- Numbers are equal under `==` where they have one place. -/
theorem beq_iff_place? : (x == y) = true ↔ ∃ p, x.place? = some p ∧ y.place? = some p := by
  show (x.compare? y == some .eq) = true ↔ _
  rw [beq_iff_eq, compare?_eq_some_iff]
  constructor
  · rintro ⟨p, q, hp, hq, hcmp⟩
    exact ⟨p, hp, (cmp_eq_eq_iff _ _).mp hcmp ▸ hq⟩
  · rintro ⟨p, hp, hq⟩
    exact ⟨p, p, hp, hq, cmp_self_eq_eq p⟩

/-- `==` on numbers is transitive. -/
theorem beq_trans {z : Binary F} (hxy : (x == y) = true) (hyz : (y == z) = true) :
    (x == z) = true := by
  obtain ⟨p, hx, hy⟩ := beq_iff_place?.mp hxy
  obtain ⟨q, hy', hz⟩ := beq_iff_place?.mp hyz
  obtain rfl := Option.some.inj (hy.symm.trans hy')
  exact beq_iff_place?.mpr ⟨p, hx, hz⟩

/-! ## Places of whole numbers -/

/-- A number of a whole number type is finite as a `Binary64`, and stands at its exact value. -/
theorem exists_place?_number {kind : IntKind} (n : kind.Number) :
    ∃ q : ℚ, (ofInt n.val : Binary64).toRat? = some q ∧
      (ofInt n.val : Binary64).place? = some ↑q := by
  obtain ⟨q, hq, -⟩ := bounded_number n
  exact ⟨q, hq, place?_of_toRat? hq⟩

/-- Places of whole numbers do not fall where the numbers grow, by `ofInt_mono`. Different numbers
    past `2 ^ 53` may share one. -/
theorem place?_number_mono {k l : IntKind} {m : k.Number} {n : l.Number} (h : m.val ≤ n.val)
    {p q : WithBotTop ℚ} (hp : (ofInt m.val : Binary64).place? = some p)
    (hq : (ofInt n.val : Binary64).place? = some q) : p ≤ q := by
  obtain ⟨r, hr, hplace⟩ := exists_place?_number m
  obtain ⟨s, hs, hplace'⟩ := exists_place?_number n
  obtain rfl := Option.some.inj (hplace.symm.trans hp)
  obtain rfl := Option.some.inj (hplace'.symm.trans hq)
  exact WithBotTop.coe_le_coe.mpr (ofInt_mono Format.double_valid h hr hs)

end Binary

end DocQuery
