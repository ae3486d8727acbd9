import DocQuery.Proofs.Number.Order
import DocQuery.Proofs.Schema.Naming
import DocQuery.Schema.Order

/-!
# Equality and order in expressions

Every value that has an order stands somewhere on the scale of its kind, and all numbers share one
scale. Values are compared by their places, except that two whole numbers are compared exactly: the
floating point numbers of different whole numbers may have one place. Equality and order are
transitive but for this exception.

## Key results

- `Value.compare_eq_ok_iff`: what comparisons compare
- `Value.same_trans`: equality of contents is transitive
- `Value.equals_compare_trans`: equality and order are transitive unless a floating point number
  blurs two whole numbers
- `Value.Blurs.exists_large`: no two whole numbers up to `2 ^ 53` are blurred
-/

namespace DocQuery

/-- Instants are equal where their `nanos` are. -/
theorem Instant.eq_iff_nanos {t u : Instant} : t = u ↔ t.nanos = u.nanos := by
  cases t
  cases u
  simp

/-- Spans are equal where their `nanos` are. -/
theorem Span.eq_iff_nanos {d e : Span} : d = e ↔ d.nanos = e.nanos := by
  cases d
  cases e
  simp

/-! ## Places -/

/-- Where a value stands on the scale of its kind, with one constructor for each scale. -/
inductive Place where
  | number (p : WithBotTop ℚ)
  | string (s : String)
  | char (c : Char)
  | bool (b : Bool)
  | instant (nanos : Int)
  | zoned (nanos : Int)
  | span (nanos : Int)
  | uuid (bits : Nat)

namespace Place

variable {p q r : Place} {o o' : Ordering}

/-- The order on each scale, by `cmp`. Places on different scales have none. -/
def compare? : Place → Place → Option Ordering
  | number p, number q => some (cmp p q)
  | string s, string t => some (cmp s t)
  | char c, char d => some (cmp c d)
  | bool b, bool c => some (cmp b c)
  | instant m, instant n => some (cmp m n)
  | zoned m, zoned n => some (cmp m n)
  | span m, span n => some (cmp m n)
  | uuid m, uuid n => some (cmp m n)
  | _, _ => none

theorem compare?_swap (h : p.compare? q = some o) : q.compare? p = some o.swap := by
  cases p <;> cases q <;> cases h <;> exact congrArg some (cmp_swap _ _).symm

/-- `compare?` gives `.eq` exactly where the places are one. -/
theorem compare?_eq_iff (h : p.compare? q = some o) : o = .eq ↔ p = q := by
  cases p <;> cases q <;> cases h <;> simp [cmp_eq_eq_iff]

/-- Comparisons on one scale follow each other, in the sense of `Ordering.Follows`. -/
theorem compare?_follows (hpq : p.compare? q = some o) (hqr : q.compare? r = some o')
    (ho : o ≠ .gt) (ho' : o' ≠ .gt) :
    ∃ o'', p.compare? r = some o'' ∧ Ordering.Follows o o' o'' := by
  -- Each comparison is on one scale, so all three places are.
  cases p <;> cases q <;> cases hpq <;> cases r <;> cases hqr <;>
    exact ⟨_, rfl, cmp_follows ho ho'⟩

end Place

namespace Value

variable {a b c : Value} {o : Ordering}

/-- Two options are both there, or one of them is missing: the cases of a comparison of two
    numbers. -/
private theorem exists_or_none {α β : Type} (x? : Option α) (y? : Option β) :
    (∃ x y, x? = some x ∧ y? = some y) ∨ x? = none ∨ y? = none := by
  cases x? <;> cases y? <;> simp

/-- Where a value stands; a value without an order stands nowhere, and neither does `nan`. -/
def place? : Value → Option Place
  | string s => some (.string s)
  | char c => some (.char c)
  | bool b => some (.bool b)
  | instant t => some (.instant t.nanos)
  | zoned t => some (.zoned t.instant.nanos)
  | span d => some (.span d.nanos)
  | uuid id => some (.uuid id.bits.toNat)
  | v => v.asFloat?.bind fun x => x.place?.map .number

/-- A number stands where its floating point number does, under `Binary.place?`. -/
theorem place?_of_asFloat? {x : Binary64} (h : a.asFloat? = some x) :
    a.place? = x.place?.map .number := by
  cases a with
  | int kind n | f32 y | f64 y => rw [place?, h, Option.bind_some] <;> simp
  | _ => cases h

/-- Only a whole number is one under `asInteger?`. -/
theorem exists_of_asInteger? {n : Int} (h : a.asInteger? = some n) :
    ∃ (kind : IntKind) (m : kind.Number), a = int kind m ∧ m.val = n := by
  cases a with
  | int kind m => exact ⟨kind, m, rfl, Option.some.inj h⟩
  | _ => cases h

/-- A whole number has a place, which is the one of its floating point number. -/
theorem exists_place?_of_asInteger? {n : Int} (h : a.asInteger? = some n) :
    a.asFloat? = some (Binary.ofInt n) ∧
      ∃ p, (Binary.ofInt n : Binary64).place? = some p ∧ a.place? = some (.number p) := by
  obtain ⟨kind, m, rfl, rfl⟩ := exists_of_asInteger? h
  obtain ⟨q, -, hplace⟩ := Binary.exists_place?_number m
  have hfloat : (int kind m).asFloat? = some (Binary.ofInt m.val) := rfl
  exact ⟨hfloat, _, hplace, by rw [place?_of_asFloat? hfloat, hplace, Option.map_some]⟩

/-- What a value at a place is, scale by scale: `place?` read backwards. -/
theorem of_place? {p : Place} (h : a.place? = some p) :
    match p with
    | .number p => ∃ x, a.asFloat? = some x ∧ x.place? = some p
    | .string s => a = string s
    | .char c => a = char c
    | .bool b => a = bool b
    | .instant n => ∃ t, a = instant t ∧ t.nanos = n
    | .zoned n => ∃ t, a = zoned t ∧ t.instant.nanos = n
    | .span n => ∃ d, a = span d ∧ d.nanos = n
    | .uuid n => ∃ id, a = uuid id ∧ id.bits.toNat = n := by
  -- Numbers have the place of their numeric view.
  cases a with
  | int | f32 | f64 =>
    rw [place?_of_asFloat? rfl, Option.map_eq_some_iff] at h
    obtain ⟨p, hp, rfl⟩ := h
    exact ⟨_, rfl, hp⟩
  | string | char | bool =>
    obtain rfl := Option.some.inj h
    rfl
  -- The other values with a place keep it as a number.
  | instant | zoned | span | uuid =>
    obtain rfl := Option.some.inj h
    exact ⟨_, rfl, rfl⟩
  -- What is left has no place.
  | _ => cases h

/-- `compareOthers`, for values that are not both numbers, is the order of their places. -/
theorem compareOthers_eq_some_iff (h : a.asFloat? = none ∨ b.asFloat? = none) :
    compareOthers a b = some o ↔
      ∃ p q, a.place? = some p ∧ b.place? = some q ∧ p.compare? q = some o := by
  have hbool (x y : Bool) : Ord.compare x y = cmp x y := by cases x <;> cases y <;> rfl
  constructor
  · intro hcompare
    -- Each case compares on one scale, by its own comparison.
    unfold compareOthers at hcompare
    split at hcompare
    case h_8 => cases hcompare
    all_goals
      refine ⟨_, _, rfl, rfl, ?_⟩
      simpa only [Place.compare?, ← cmp_eq_compareOfLessAndEq, ← cmp_eq_compare, hbool] using
        hcompare
  · rintro ⟨p, q, hp, hq, hpq⟩
    have ha := of_place? hp
    have hb := of_place? hq
    -- Two places are compared on one scale, and two numbers are excluded.
    cases p <;> cases q <;> try (cases hpq; done)
    case number.number =>
      obtain ⟨x, hx, -⟩ := ha
      obtain ⟨y, hy, -⟩ := hb
      simp [hx, hy] at h
    case string.string | char.char | bool.bool =>
      rw [ha, hb]
      simpa only [Place.compare?, compareOthers, ← cmp_eq_compareOfLessAndEq, hbool] using hpq
    all_goals
      obtain ⟨x, rfl, rfl⟩ := ha
      obtain ⟨y, rfl, rfl⟩ := hb
      simpa only [Place.compare?, compareOthers, ← cmp_eq_compare] using hpq

/-- Two numbers have an order where both have a place: `compare?` on floating point numbers is that
    on places. -/
theorem compare?_eq_some_iff_place? {x y : Binary64} (hx : a.asFloat? = some x)
    (hy : b.asFloat? = some y) :
    x.compare? y = some o ↔
      ∃ p q, a.place? = some p ∧ b.place? = some q ∧ p.compare? q = some o := by
  rw [Binary.compare?_eq_some_iff, place?_of_asFloat? hx, place?_of_asFloat? hy]
  constructor
  · rintro ⟨p, q, hp, hq, hcmp⟩
    exact ⟨.number p, .number q, by rw [hp]; rfl, by rw [hq]; rfl, congrArg some hcmp⟩
  · rintro ⟨p, q, hp, hq, hcmp⟩
    obtain ⟨p, hx, rfl⟩ := Option.map_eq_some_iff.mp hp
    obtain ⟨q, hy, rfl⟩ := Option.map_eq_some_iff.mp hq
    exact ⟨p, q, hx, hy, Option.some.inj hcmp⟩

/-- `compare` goes by the exact numbers of two whole numbers, and by the places of all other
    values. -/
theorem compare_eq_ok_iff :
    a.compare b = .ok o ↔
      (∃ m n, a.asInteger? = some m ∧ b.asInteger? = some n ∧ cmp m n = o) ∨
      ((a.asInteger? = none ∨ b.asInteger? = none) ∧
        ∃ p q, a.place? = some p ∧ b.place? = some q ∧ p.compare? q = some o) := by
  unfold compare
  rcases exists_or_none a.asInteger? b.asInteger? with ⟨m, n, hm, hn⟩ | hinteger
  · -- Two whole numbers are compared before anything else.
    simp [hm, hn, cmp_eq_compare]
  · have hinexact : ¬ ∃ m n, a.asInteger? = some m ∧ b.asInteger? = some n ∧ cmp m n = o := by
      rintro ⟨m, n, hm, hn, -⟩
      simp [hm, hn] at hinteger
    simp only [hinexact, hinteger, true_and, false_or]
    split
    · rename_i m n hm hn
      simp [hm, hn] at hinteger
    · -- Two numbers are compared as floating point numbers, and anything else by `compareOthers`.
      rcases exists_or_none a.asFloat? b.asFloat? with ⟨x, y, hx, hy⟩ | hfloat
      · rw [← compare?_eq_some_iff_place? hx hy]
        simp only [hx, hy]
        split <;> simp [*]
      · rw [← compareOthers_eq_some_iff hfloat]
        split
        · rename_i x y hx hy
          simp [hx, hy] at hfloat
        · split <;> simp [*]

/-- `compare` on two whole numbers is `cmp`. -/
theorem compare_of_asInteger? {m n : Int} (hm : a.asInteger? = some m)
    (hn : b.asInteger? = some n) : a.compare b = .ok (cmp m n) :=
  compare_eq_ok_iff.mpr (.inl ⟨m, n, hm, hn, rfl⟩)

/-! ## Equality -/

/-- `same` on values is transitive. -/
private theorem same_chain (hab : same a b = true) (hbc : same b c = true) : same a c = true := by
  revert c hab hbc
  apply same.induct (fun a b => ∀ {c}, same a b = true → same b c = true → same a c = true)
    (fun as bs => ∀ {cs}, sameGroups as bs = true → sameGroups bs cs = true →
      sameGroups as cs = true)
    (fun as bs => ∀ {cs}, sameEntries as bs = true → sameEntries bs cs = true →
      sameEntries as cs = true)
    (fun as bs => ∀ {cs}, sameItems as bs = true → sameItems bs cs = true → sameItems as cs = true)
  -- In every case the third value is of the kind of the first two.
  case case1 => exact fun _ h => h
  -- Plain values with one part, then those with two.
  case case2 | case3 | case4 | case8 | case9 | case10 | case11 | case12 | case13 =>
    intro x y c hab hbc
    cases c <;> simp only [same, beq_iff_eq, Bool.false_eq_true] at hab hbc ⊢
    exact hab.trans hbc
  case case5 | case14 =>
    intro x m y n c hab hbc
    cases c <;> simp only [same, Bool.and_eq_true, beq_iff_eq, Bool.false_eq_true] at hab hbc ⊢
    exact ⟨hab.1.trans hbc.1, hab.2.trans hbc.2⟩
  -- Equality of floats is transitive, though not reflexive.
  case case6 | case7 =>
    intro x y c hab hbc
    cases c <;> simp only [same, Bool.false_eq_true] at hab hbc ⊢
    exact Binary.beq_trans hab hbc
  -- Values in containers are compared part by part.
  case case15 | case16 | case17 | case18 =>
    intro x y ih c hab hbc
    cases c <;> simp only [same, Bool.false_eq_true] at hab hbc ⊢
    exact ih hab hbc
  case case19 =>
    intro r as s bs ih c hab hbc
    cases c <;>
      simp only [same, Ty.same, Bool.and_eq_true, beq_iff_eq, Bool.false_eq_true] at hab hbc ⊢
    exact ⟨⟨hab.1.1.trans hbc.1.1, hab.1.2.trans hbc.1.2⟩, ih hab.2 hbc.2⟩
  -- Groups, entries and items at the front of a list.
  case case22 =>
    intro k a as l b bs ihk iha ihas cs hab hbc
    rcases cs with _ | ⟨⟨m, c⟩, cs⟩ <;>
      simp only [sameGroups, Bool.and_eq_true, Bool.false_eq_true] at hab hbc ⊢
    exact ⟨⟨ihk hab.1.1 hbc.1.1, iha hab.1.2 hbc.1.2⟩, ihas hab.2 hbc.2⟩
  case case25 =>
    intro k a as l b bs iha ihas cs hab hbc
    rcases cs with _ | ⟨⟨m, c⟩, cs⟩ <;>
      simp only [sameEntries, Bool.and_eq_true, beq_iff_eq, Bool.false_eq_true] at hab hbc ⊢
    exact ⟨⟨hab.1.1.trans hbc.1.1, iha hab.1.2 hbc.1.2⟩, ihas hab.2 hbc.2⟩
  case case28 =>
    intro a as b bs iha ihas cs hab hbc
    cases cs <;> simp only [sameItems, Bool.and_eq_true, Bool.false_eq_true] at hab hbc ⊢
    exact ⟨iha hab.1 hbc.1, ihas hab.2 hbc.2⟩
  all_goals
    intros
    simp_all [same, sameGroups, sameEntries, sameItems]

/-- `==` on values, equality of contents, is transitive. -/
theorem same_trans (hab : (a == b) = true) (hbc : (b == c) = true) : (a == c) = true :=
  same_chain hab hbc

/-- Values with one content are numbers together. -/
theorem asFloat?_eq_none_iff_of_same (h : (a == b) = true) :
    a.asFloat? = none ↔ b.asFloat? = none := by
  have h : same a b = true := h
  cases a <;> cases b <;> simp only [same, Bool.false_eq_true] at h <;> simp [asFloat?]

theorem equals_of_asInteger? {m n : Int} (hm : a.asInteger? = some m)
    (hn : b.asInteger? = some n) : a.equals b = true ↔ m = n := by
  simp [equals, hm, hn]

/-- `equals` on numbers that are not both whole is equality of places. -/
theorem equals_of_asFloat? {x y : Binary64} (hx : a.asFloat? = some x) (hy : b.asFloat? = some y)
    (hnone : a.asInteger? = none ∨ b.asInteger? = none) :
    a.equals b = true ↔ ∃ p, a.place? = some p ∧ b.place? = some p := by
  -- One of the two is no integer, so they are compared as floats.
  have hequals : a.equals b = (x == y) := by
    rcases hnone with hnone | hnone <;> simp [equals, hnone, hx, hy]
  rw [hequals, Binary.beq_iff_place?, place?_of_asFloat? hx, place?_of_asFloat? hy]
  constructor
  · rintro ⟨p, hp, hq⟩
    exact ⟨.number p, by rw [hp]; rfl, by rw [hq]; rfl⟩
  · rintro ⟨p, hp, hq⟩
    obtain ⟨p, hx, rfl⟩ := Option.map_eq_some_iff.mp hp
    obtain ⟨q, hy, hpq⟩ := Option.map_eq_some_iff.mp hq
    exact ⟨p, hx, Place.number.inj hpq ▸ hy⟩

theorem asInteger?_eq_none (h : a.asFloat? = none) : a.asInteger? = none := by
  cases a <;> first | rfl | cases h

/-- `equals` on values that are not both numbers is `==`. -/
theorem equals_of_others (h : a.asFloat? = none ∨ b.asFloat? = none) :
    a.equals b = (a == b) := by
  have hinteger := h.imp asInteger?_eq_none asInteger?_eq_none
  rcases h with h | h <;> rcases hinteger with hinteger | hinteger <;> simp [equals, h, hinteger]

/-- Values on one scale that are not both numbers are of one content where they have one place. -/
theorem same_iff_of_place? {p q : Place} (h : a.asFloat? = none ∨ b.asFloat? = none)
    (hp : a.place? = some p) (hq : b.place? = some q) (hpq : p.compare? q = some o) :
    (a == b) = true ↔ p = q := by
  -- The places say what both values are, and only values of one kind are compared.
  have ha := of_place? hp
  have hb := of_place? hq
  show same a b = true ↔ p = q
  cases p <;> cases q <;> try (cases hpq; done)
  -- One of two numbers has no numeric view, which cannot be.
  case number.number =>
    obtain ⟨x, hx, -⟩ := ha
    obtain ⟨y, hy, -⟩ := hb
    simp [hx, hy] at h
  case string.string | char.char | bool.bool => simp [ha, hb, same]
  case uuid.uuid =>
    obtain ⟨⟨x⟩, rfl, rfl⟩ := ha
    obtain ⟨⟨y⟩, rfl, rfl⟩ := hb
    simp [same, BitVec.toNat_inj]
  -- Times and spans are known by their nanoseconds.
  all_goals
    obtain ⟨x, rfl, rfl⟩ := ha
    obtain ⟨y, rfl, rfl⟩ := hb
    simp [same, Instant.eq_iff_nanos, Span.eq_iff_nanos]

/-- `equals`, the equality in expressions, is symmetric. -/
theorem equals_comm (a b : Value) : a.equals b = b.equals a := by
  rcases exists_or_none a.asInteger? b.asInteger? with ⟨m, n, hm, hn⟩ | hinteger
  · rw [Bool.eq_iff_iff, equals_of_asInteger? hm hn, equals_of_asInteger? hn hm, eq_comm]
  rcases exists_or_none a.asFloat? b.asFloat? with ⟨x, y, hx, hy⟩ | hfloat
  · rw [Bool.eq_iff_iff, equals_of_asFloat? hx hy hinteger, equals_of_asFloat? hy hx hinteger.symm]
    simp only [and_comm]
  · rw [equals_of_others hfloat, equals_of_others hfloat.symm, same_comm]

/-- What `equals` a number is a number of the same place. -/
theorem exists_place?_of_equals {y : Binary64} (hy : b.asFloat? = some y)
    (h : a.equals b = true) :
    ∃ x p, a.asFloat? = some x ∧ a.place? = some p ∧ b.place? = some p := by
  have hx : a.asFloat? ≠ none := by
    intro hx
    rw [equals_of_others (.inl hx)] at h
    rw [(asFloat?_eq_none_iff_of_same h).mp hx] at hy
    cases hy
  obtain ⟨x, hx⟩ := Option.ne_none_iff_exists'.mp hx
  refine ⟨x, ?_⟩
  rcases exists_or_none a.asInteger? b.asInteger? with ⟨m, n, hm, hn⟩ | hinteger
  · -- One whole number has one place.
    obtain rfl := (equals_of_asInteger? hm hn).mp h
    obtain ⟨-, p, hp, ha⟩ := exists_place?_of_asInteger? hm
    obtain ⟨-, q, hq, hb⟩ := exists_place?_of_asInteger? hn
    obtain rfl := Option.some.inj (hp.symm.trans hq)
    exact ⟨.number p, hx, ha, hb⟩
  · obtain ⟨p, ha, hb⟩ := (equals_of_asFloat? hx hy hinteger).mp h
    exact ⟨p, hx, ha, hb⟩

/-! ## Two values -/

/-- `compare` in the opposite direction has the opposite result. -/
theorem compare_swap (h : a.compare b = .ok o) : b.compare a = .ok o.swap := by
  rcases compare_eq_ok_iff.mp h with ⟨m, n, hm, hn, rfl⟩ | ⟨hinteger, p, q, hp, hq, hpq⟩
  · exact (compare_of_asInteger? hn hm).trans (congrArg Except.ok (cmp_swap m n).symm)
  · exact compare_eq_ok_iff.mpr
      (.inr ⟨hinteger.symm, q, p, hq, hp, Place.compare?_swap hpq⟩)

/-- Where `compare` has a result, it is `.eq` exactly where the values are equal under `equals`. -/
theorem compare_eq_iff_equals (h : a.compare b = .ok o) : o = .eq ↔ a.equals b = true := by
  -- Two integers, two floats or two values of another kind.
  rcases compare_eq_ok_iff.mp h with ⟨m, n, hm, hn, rfl⟩ | ⟨hinteger, p, q, hp, hq, hpq⟩
  · rw [cmp_eq_eq_iff, equals_of_asInteger? hm hn]
  rw [Place.compare?_eq_iff hpq]
  rcases exists_or_none a.asFloat? b.asFloat? with ⟨x, y, hx, hy⟩ | hfloat
  · rw [equals_of_asFloat? hx hy hinteger]
    constructor
    · -- Floats compare as equal where they stand at one place.
      rintro rfl
      exact ⟨p, hp, hq⟩
    · rintro ⟨p', hp', hq'⟩
      exact Option.some.inj (hp.symm.trans (hp'.trans (hq'.symm.trans hq)))
  · rw [equals_of_others hfloat, same_iff_of_place? hfloat hp hq hpq]

/-! ## Three values -/

/-- A floating point number that `equals` two different whole numbers. -/
def Blurs (x a b : Value) : Prop :=
  x.asInteger? = none ∧ x.equals a = true ∧ x.equals b = true ∧
    ∃ m n, a.asInteger? = some m ∧ b.asInteger? = some n ∧ m ≠ n

/-- A floating point number `Blurs` two different whole numbers that it shares its place with. -/
theorem Blurs.of_place? {x : Value} {p : Place} {m n : Int} (hx : x.asInteger? = none)
    (hp : x.place? = some p) (ha : a.place? = some p) (hb : b.place? = some p)
    (hm : a.asInteger? = some m) (hn : b.asInteger? = some n) (hne : m ≠ n) : Blurs x a b := by
  obtain ⟨hfloat, q, -, hq⟩ := exists_place?_of_asInteger? hm
  obtain ⟨hfloat', -⟩ := exists_place?_of_asInteger? hn
  obtain rfl := Option.some.inj (ha.symm.trans hq)
  obtain ⟨y, hy, -⟩ := Value.of_place? hp
  exact ⟨hx, (equals_of_asFloat? hy hfloat (.inl hx)).mpr ⟨_, hp, ha⟩,
    (equals_of_asFloat? hy hfloat' (.inl hx)).mpr ⟨_, hp, hb⟩, m, n, hm, hn, hne⟩

/-- Of two whole numbers that are blurred one is past `2 ^ 53`, from where on floating point numbers
    have gaps. -/
theorem Blurs.exists_large {x : Value} (h : Blurs x a b) :
    ∃ m n, a.asInteger? = some m ∧ b.asInteger? = some n ∧
      (9007199254740992 < m.natAbs ∨ 9007199254740992 < n.natAbs) := by
  obtain ⟨-, hxa, hxb, m, n, hm, hn, hne⟩ := h
  refine ⟨m, n, hm, hn, ?_⟩
  by_contra hsmall
  obtain ⟨hfloat, p, hp, ha⟩ := exists_place?_of_asInteger? hm
  obtain ⟨hfloat', q, hq, hb⟩ := exists_place?_of_asInteger? hn
  obtain ⟨-, r, -, hr, ha'⟩ := exists_place?_of_equals hfloat hxa
  obtain ⟨-, s, -, hs, hb'⟩ := exists_place?_of_equals hfloat' hxb
  -- Both numbers are kept exactly, and have the place of the third.
  rw [Binary.place?_of_toRat? (Binary.toRat?_ofInt (by omega))] at hp hq
  obtain rfl := Option.some.inj hp
  obtain rfl := Option.some.inj hq
  obtain rfl := Option.some.inj (hr.symm.trans hs)
  have hplace := Place.number.inj (Option.some.inj (ha.symm.trans (ha'.trans (hb'.symm.trans hb))))
  exact hne (Int.cast_inj.mp (WithBotTop.coe_injective hplace))

/-- `equals` is transitive where the value in the middle does not blur the outer ones. -/
theorem equals_trans (hblurs : ¬ Blurs b a c) (hab : a.equals b = true) (hbc : b.equals c = true) :
    a.equals c = true := by
  cases hy : b.asFloat? with
  | none =>
    -- Values that are no numbers are compared by their contents.
    rw [equals_of_others (.inr hy)] at hab
    rw [equals_of_others (.inl hy)] at hbc
    have hx := (asFloat?_eq_none_iff_of_same hab).mpr hy
    rw [equals_of_others (.inl hx)]
    exact same_trans hab hbc
  -- All three are numbers of one place. Only two whole numbers on the outside are compared by more
  -- than that.
  | some y =>
    obtain ⟨x, p, hx, ha, hb⟩ := exists_place?_of_equals hy hab
    obtain ⟨z, q, hz, hc, hb'⟩ := exists_place?_of_equals hy (equals_comm b c ▸ hbc)
    obtain rfl := Option.some.inj (hb.symm.trans hb')
    rcases exists_or_none a.asInteger? c.asInteger? with ⟨m, n, hm, hn⟩ | hinteger
    · rw [equals_of_asInteger? hm hn]
      by_contra hne
      cases hk : b.asInteger? with
      | none => exact hblurs (.of_place? hk hb ha hc hm hn hne)
      | some k =>
        rw [equals_of_asInteger? hm hk] at hab
        rw [equals_of_asInteger? hk hn] at hbc
        exact hne (hab.trans hbc)
    · exact (equals_of_asFloat? hx hz hinteger).mpr ⟨p, ha, hc⟩

/-- Whole numbers in order have places in order, though perhaps one place. -/
theorem exists_place?_of_cmp {m n : Int} (hm : a.asInteger? = some m) (hn : b.asInteger? = some n)
    (h : cmp m n ≠ .gt) :
    ∃ p q o, a.place? = some p ∧ b.place? = some q ∧ p.compare? q = some o ∧ o ≠ .gt := by
  obtain ⟨k, m, rfl, rfl⟩ := exists_of_asInteger? hm
  obtain ⟨l, n, rfl, rfl⟩ := exists_of_asInteger? hn
  obtain ⟨-, p, hp, ha⟩ := exists_place?_of_asInteger? hm
  obtain ⟨-, q, hq, hb⟩ := exists_place?_of_asInteger? hn
  refine ⟨_, _, cmp p q, ha, hb, rfl, cmp_ne_gt_iff.mpr ?_⟩
  exact Binary.place?_number_mono (cmp_ne_gt_iff.mp h) hp hq

/-- Values in order have places in order. The two orders are one, except perhaps for whole
    numbers. -/
theorem exists_place?_of_compare (h : a.compare b = .ok o) (ho : o ≠ .gt) :
    ∃ p q o', a.place? = some p ∧ b.place? = some q ∧ p.compare? q = some o' ∧ o' ≠ .gt ∧
      (o' = o ∨ ∃ m n, a.asInteger? = some m ∧ b.asInteger? = some n ∧ cmp m n = o) := by
  rcases compare_eq_ok_iff.mp h with ⟨m, n, hm, hn, rfl⟩ | ⟨-, p, q, hp, hq, hpq⟩
  · obtain ⟨p, q, o', ha, hb, hpq, ho'⟩ := exists_place?_of_cmp hm hn ho
    exact ⟨p, q, o', ha, hb, hpq, ho', .inr ⟨m, n, hm, hn, rfl⟩⟩
  · exact ⟨p, q, o, hp, hq, hpq, ho, .inl rfl⟩

/-- Whole numbers are in order where the place of the one is below the place of the other. -/
theorem lt_of_compare?_place? {m n : Int} {p q : Place} (hm : a.asInteger? = some m)
    (hn : b.asInteger? = some n) (hp : a.place? = some p) (hq : b.place? = some q)
    (h : p.compare? q = some .lt) : m < n := by
  -- Were they not in this order, the places would not be either.
  by_contra hge
  obtain ⟨q', p', o, hq', hp', hqp, ho⟩ :=
    exists_place?_of_cmp hn hm (cmp_ne_gt_iff.mpr (not_lt.mp hge))
  obtain rfl := Option.some.inj (hp.symm.trans hp')
  obtain rfl := Option.some.inj (hq.symm.trans hq')
  exact ho (Option.some.inj (hqp.symm.trans (Place.compare?_swap h)))

/-- `compare` is transitive where no floating point number among three values blurs the other
    two. -/
theorem compare_trans {o' : Ordering}
    (hblurs : ¬ Blurs a b c ∧ ¬ Blurs b a c ∧ ¬ Blurs c a b) (hab : a.compare b = .ok o)
    (hbc : b.compare c = .ok o') (ho : o ≠ .gt) (ho' : o' ≠ .gt) :
    ∃ o'', a.compare c = .ok o'' ∧ Ordering.Follows o o' o'' := by
  -- All three values have places, and the places are in order.
  obtain ⟨p, q, o₁, ha, hb, hpq, ho₁, hexact⟩ := exists_place?_of_compare hab ho
  obtain ⟨q', r, o₂, hb', hc, hqr, ho₂, hexact'⟩ := exists_place?_of_compare hbc ho'
  obtain rfl := Option.some.inj (hb.symm.trans hb')
  obtain ⟨o₃, hpr, hfollows⟩ := Place.compare?_follows hpq hqr ho₁ ho₂
  rcases exists_or_none a.asInteger? c.asInteger? with ⟨m, n, hm, hn⟩ | hinteger
  · refine ⟨cmp m n, compare_of_asInteger? hm hn, ?_⟩
    cases hk : b.asInteger? with
    | some k =>
      -- Three whole numbers are compared exactly.
      obtain rfl := Except.ok.inj ((compare_of_asInteger? hm hk).symm.trans hab)
      obtain rfl := Except.ok.inj ((compare_of_asInteger? hk hn).symm.trans hbc)
      exact cmp_follows ho ho'
    | none =>
      -- The value in the middle is no whole number, so both steps are those of the places.
      obtain rfl : o₁ = o := hexact.resolve_right fun ⟨_, _, _, h, _⟩ => by simp [hk] at h
      obtain rfl : o₂ = o' := hexact'.resolve_right fun ⟨_, _, h, _⟩ => by simp [hk] at h
      by_cases hlt : o₃ = .lt
      · have hless := lt_of_compare?_place? hm hn ha hc (hlt ▸ hpr)
        rw [(cmp_eq_lt_iff m n).mpr hless]
        exact ⟨by simp, fun _ => rfl⟩
      · -- All three values have one place, and so the whole numbers are one.
        obtain ⟨rfl, rfl⟩ := hfollows.eq_of_ne_lt ho₁ ho₂ hlt
        obtain rfl := (Place.compare?_eq_iff hpq).mp rfl
        obtain rfl := (Place.compare?_eq_iff hqr).mp rfl
        have hmn : m = n := by
          by_contra hne
          exact hblurs.2.1 (.of_place? hk hb ha hc hm hn hne)
        simp [Ordering.Follows, hmn]
  · refine ⟨o₃, compare_eq_ok_iff.mpr (.inr ⟨hinteger, p, r, ha, hc, hpr⟩), hfollows.1, ?_⟩
    intro hless
    by_contra hne
    obtain ⟨rfl, rfl⟩ := hfollows.eq_of_ne_lt ho₁ ho₂ hne
    obtain rfl := (Place.compare?_eq_iff hpq).mp rfl
    obtain rfl := (Place.compare?_eq_iff hqr).mp rfl
    -- Two whole numbers in order have one place, and the third value is no whole number.
    rcases hless with rfl | rfl
    · obtain ⟨m, k, hm, hk, hcmp⟩ := hexact.resolve_left (by simp)
      have hc' : c.asInteger? = none := hinteger.resolve_left (by simp [hm])
      exact hblurs.2.2 (.of_place? hc' hc ha hb hm hk ((cmp_eq_lt_iff _ _).mp hcmp).ne)
    · obtain ⟨k, n, hk, hn, hcmp⟩ := hexact'.resolve_left (by simp)
      have ha' : a.asInteger? = none := hinteger.resolve_right (by simp [hn])
      exact hblurs.1 (.of_place? ha' ha hb hc hk hn ((cmp_eq_lt_iff _ _).mp hcmp).ne)

/-- `equals` and `compare` are transitive unless two of three values are different whole numbers and
    the third is a floating point number that equals both. Of three values in order the first and
    the third have an order; the third is not below the first, and it is above it where one of the
    two steps goes up. -/
theorem equals_compare_trans {a b c : Value}
    (hblurs : ¬ Blurs a b c ∧ ¬ Blurs b a c ∧ ¬ Blurs c a b) :
    (a.equals b = true → b.equals c = true → a.equals c = true) ∧
      ∀ o o', a.compare b = .ok o → b.compare c = .ok o' → o ≠ .gt → o' ≠ .gt →
        ∃ o'', a.compare c = .ok o'' ∧ o'' ≠ .gt ∧ (o = .lt ∨ o' = .lt → o'' = .lt) :=
  ⟨equals_trans hblurs.2.1, fun _ _ => compare_trans hblurs⟩

/-- `equals_compare_trans` at 1, the floating point number 1 and 2. -/
theorem equals_compare_trans_small :
    ∃ o, (int .i8 ⟨1, by decide⟩).compare (int .i16 ⟨2, by decide⟩) = .ok o ∧ o ≠ .gt ∧
      (Ordering.eq = .lt ∨ Ordering.lt = .lt → o = .lt) := by
  -- One of the numbers is a float, so they are compared as floats.
  have hone : (Binary.ofInt 1 : Binary64).compare? (.ofInt 1) = some .eq := by decide +kernel
  have htwo : (Binary.ofInt 1 : Binary64).compare? (.ofInt 2) = some .lt := by decide +kernel
  have hdiffer : (f64 (.ofInt 1)).equals (int .i16 ⟨2, by decide⟩) = false := by decide +kernel
  refine (equals_compare_trans (b := f64 (.ofInt 1)) ⟨?_, ?_, ?_⟩).2 .eq .lt ?_ ?_ (by simp)
    (by simp)
  -- None of the three blurs the two others: 2 differs from the float, and the others are integers.
  · exact fun h => by cases h.1
  · exact fun h => by cases hdiffer.symm.trans h.2.2.1
  · exact fun h => by cases h.1
  · simp [compare, asInteger?, asFloat?, hone]
  · simp [compare, asInteger?, asFloat?, htwo]

/-- The number after `2 ^ 53` and the number `2 ^ 53` both equal the floating point number `2 ^ 53`
    under `equals`, and are not equal themselves. -/
theorem not_equals_compare_trans :
    let a := int .i64 ⟨9007199254740993, by decide⟩
    let b := f64 (.ofInt 9007199254740992)
    let c := int .i64 ⟨9007199254740992, by decide⟩
    (a.equals b = true ∧ b.equals c = true ∧ a.equals c = false) ∧
      a.compare b = .ok .eq ∧ b.compare c = .ok .eq ∧ a.compare c = .ok .gt := by
  have hnext : (Binary.ofInt 9007199254740993 : Binary64).compare? (.ofInt 9007199254740992) =
    some .eq := by decide +kernel
  have hsame : (Binary.ofInt 9007199254740992 : Binary64).compare? (.ofInt 9007199254740992) =
    some .eq := by decide +kernel
  refine ⟨by decide +kernel, ?_, ?_, rfl⟩
  · simp [compare, asInteger?, asFloat?, hnext]
  · simp [compare, asInteger?, asFloat?, hsame]

end Value

end DocQuery
