import DocQuery.Proofs.Codec.Leaf
import DocQuery.Proofs.Datum.Wire
import DocQuery.Proofs.Number.Bounds
import DocQuery.Proofs.Sequence

/-!
# Enumerations in documents

A variant is written as its name or as its number. A number is checked when it is read, not when it
is written, and it is rounded in between. Up to the greatest safe number nothing is lost. The number
right after it is read as the greatest safe one, and all others are refused.

## Key results

- `Datum.safeInteger?_ofInt_eq_some_iff`: what the document of a whole number is read as
- `Datum.eq_or_le_of_ofInt_eq`: safe numbers have documents of their own
- `Codec.Leaf.decode_encode_enum`: what a variant is read as, and which variants share a document
-/

namespace DocQuery

namespace Datum

variable {m n : Int}

/-! ## Whole numbers past the safe ones -/

private theorem natAbs_sign_mul (hn : n ≠ 0) (k : Nat) : (n.sign * k).natAbs = k := by
  rw [Int.natAbs_mul, Int.natAbs_natCast, Int.natAbs_sign_of_ne_zero hn, Nat.one_mul]

/-- The whole number right after the greatest safe one is rounded to that by `ofInt`. -/
theorem ofInt_eq_of_natAbs_eq (h : n.natAbs = maxSafeInteger + 1) :
    (Binary.ofInt n : Binary64) = Binary.ofInt (n.sign * maxSafeInteger) := by
  -- There are two such numbers, so rounding them is a computation.
  have hn : n = 9007199254740993 ∨ n = -9007199254740993 := by
    simp only [maxSafeInteger] at h
    omega
  rcases hn with rfl | rfl <;> decide +kernel

/-- What `safeInteger?` gives for the document of a whole number: safe numbers are read as
    themselves, the number right after them as the greatest safe one, and no other is read. -/
theorem safeInteger?_ofInt_eq_some_iff :
    safeInteger? (Binary.ofInt n) = some m ↔
      n.natAbs ≤ maxSafeInteger ∧ m = n ∨
        n.natAbs = maxSafeInteger + 1 ∧ m = n.sign * maxSafeInteger := by
  -- Below the number after the safe ones, at it, and beyond it.
  rcases lt_trichotomy n.natAbs (maxSafeInteger + 1) with hlt | heq | hgt
  · rw [safeInteger?_ofInt (Nat.le_of_lt_succ hlt), Option.some.injEq]
    omega
  · have hsafe := (natAbs_sign_mul (n := n) (by omega) maxSafeInteger).le
    rw [ofInt_eq_of_natAbs_eq heq, safeInteger?_ofInt hsafe, Option.some.injEq]
    omega
  · -- The next number of the format is not rounded down to a safe one.
    have hkeeps : Format.double.Keeps (9007199254740994 : Nat) :=
      ⟨4503599627370497, 1, by norm_num, by decide, by decide, by decide⟩
    constructor
    · intro h
      obtain ⟨hexact, hsafe⟩ := safeInteger?_eq_some_iff.mp h
      have hle : ((9007199254740994 : Nat) : Rat) ≤ n.natAbs := by
        simp only [maxSafeInteger] at hgt
        exact_mod_cast hgt
      have hbound := Binary.le_abs_of_toRat?_ofInt Format.double_valid hkeeps hle hexact
      rw [Binary.abs_intCast] at hbound
      have hbound : 9007199254740994 ≤ m.natAbs := by exact_mod_cast hbound
      simp only [maxSafeInteger] at hsafe
      omega
    · omega

/-- Of two numbers with one document, if they are not the same, neither is less than the greatest
    safe one, and not both are safe. -/
theorem eq_or_le_of_ofInt_eq (h : (Binary.ofInt m : Binary64) = Binary.ofInt n) :
    m = n ∨ maxSafeInteger ≤ m.natAbs ∧ maxSafeInteger ≤ n.natAbs ∧
      (maxSafeInteger < m.natAbs ∨ maxSafeInteger < n.natAbs) := by
  rcases le_or_gt m.natAbs maxSafeInteger with hm | hm
  · -- The document of the other number is read as the safe one.
    have hread := safeInteger?_ofInt hm
    rw [h, safeInteger?_ofInt_eq_some_iff] at hread
    rcases hread with ⟨-, heq⟩ | ⟨hn, heq⟩
    · exact .inl heq
    · have hsafe := natAbs_sign_mul (n := n) (by omega) maxSafeInteger
      rw [← heq] at hsafe
      omega
  · -- The same the other way round, and if neither is safe nothing is left to show.
    rcases le_or_gt n.natAbs maxSafeInteger with hn | hn
    · have hread := safeInteger?_ofInt hn
      rw [← h, safeInteger?_ofInt_eq_some_iff] at hread
      rcases hread with ⟨-, heq⟩ | ⟨hm, heq⟩
      · exact .inl heq.symm
      · have hsafe := natAbs_sign_mul (n := m) (by omega) maxSafeInteger
        rw [← heq] at hsafe
        omega
    · omega

end Datum

namespace Codec

variable {e : EnumType}

/-! ## Variants -/

/-- `decodeEnum` reads a number as the declared variant with that number. -/
theorem decodeEnum_number_eq_ok_iff {x : Binary64} {v : Value} :
    decodeEnum e .numeric (.number x) = .ok v ↔
      ∃ n, Datum.safeInteger? x = some n ∧ n ∈ e.variants.map Prod.snd ∧ v = .enum e n := by
  constructor
  · intro h
    obtain ⟨n, hn, hv⟩ := Sequence.exists_of_bind_eq_ok h
    dsimp only at hv
    cases hname : e.nameOf? n.val with
    | none =>
      rw [hname] at hv
      cases hv
    | some name =>
      rw [hname] at hv
      obtain ⟨variant, hfound, -⟩ := Option.map_eq_some_iff.mp hname
      refine ⟨n.val, safeInteger?_of_narrowTo hn, ?_, (Except.ok.inj hv).symm⟩
      -- The name was found by the number, so the variant with that name has it.
      have hnumber : variant.2 = n.val := by simpa using List.find?_some hfound
      exact List.mem_map.mpr ⟨variant, List.mem_of_find?_eq_some hfound, hnumber⟩
  · rintro ⟨n, hsafe, hmem, rfl⟩
    obtain ⟨name, hname, -⟩ := exists_nameOf? hmem
    have hholds := holds_of_natAbs_le (Datum.natAbs_le_of_safeInteger? hsafe)
    rw [decodeEnum, narrowTo_of_safeInteger? hholds hsafe]
    simp only [bind, Except.bind, hname, Option.map_some]

namespace Leaf

/-- A declared variant is always written by `encode`. What is written is read by `decode` as the
    variant itself, if it is a name or the number is safe. The number right after the safe ones is
    read as the greatest safe one, if that is declared, and any other number is not read. Two
    variants are written the same only as numbers of which neither is less than the greatest safe
    one and not both are safe. -/
theorem decode_encode_enum (hnames : (e.variants.map Prod.fst).Nodup)
    (hnumbers : (e.variants.map Prod.snd).Nodup) {variant : String × Int}
    (hvariant : variant ∈ e.variants) (encoding : EnumEncoding) :
    ∃ d, (Leaf.enum e encoding).encode (.enum e variant.2) = .ok d ∧
      (∀ v, (Leaf.enum e encoding).decode d = .ok v ↔
        (encoding = .name ∨ variant.2.natAbs ≤ Datum.maxSafeInteger) ∧ v = .enum e variant.2 ∨
        encoding = .numeric ∧ variant.2.natAbs = Datum.maxSafeInteger + 1 ∧
          variant.2.sign * Datum.maxSafeInteger ∈ e.variants.map Prod.snd ∧
          v = .enum e (variant.2.sign * Datum.maxSafeInteger)) ∧
      ∀ other ∈ e.variants, (Leaf.enum e encoding).encode (.enum e other.2) = .ok d →
        other = variant ∨ encoding = .numeric ∧
          Datum.maxSafeInteger ≤ other.2.natAbs ∧ Datum.maxSafeInteger ≤ variant.2.natAbs ∧
          (Datum.maxSafeInteger < other.2.natAbs ∨ Datum.maxSafeInteger < variant.2.natAbs) := by
  have hmem : variant.2 ∈ e.variants.map Prod.snd := List.mem_map_of_mem hvariant
  have hencode (n : Int) : (Leaf.enum e encoding).encode (.enum e n) = encodeEnum e encoding n :=
    if_pos rfl
  cases encoding with
  | numeric =>
    refine ⟨Datum.ofInt variant.2, hencode _, fun v => ?_, fun other hother h => ?_⟩
    · rw [decode, Datum.ofInt, decodeEnum_number_eq_ok_iff]
      constructor
      · rintro ⟨n, hread, hdeclared, rfl⟩
        -- The number is read as itself or, if it is the one past the safe ones, as the last of
        -- these.
        rcases Datum.safeInteger?_ofInt_eq_some_iff.mp hread with ⟨hsafe, rfl⟩ | ⟨hpast, rfl⟩
        · exact .inl ⟨.inr hsafe, rfl⟩
        · exact .inr ⟨rfl, hpast, hdeclared, rfl⟩
      · rintro (⟨hname | hsafe, rfl⟩ | ⟨-, hpast, hdeclared, rfl⟩)
        · cases hname
        · exact ⟨_, Datum.safeInteger?_ofInt_eq_some_iff.mpr (.inl ⟨hsafe, rfl⟩), hmem, rfl⟩
        · exact ⟨_, Datum.safeInteger?_ofInt_eq_some_iff.mpr (.inr ⟨hpast, rfl⟩), hdeclared, rfl⟩
    · rw [hencode] at h
      have hsame := Datum.number.inj (Except.ok.inj h)
      rcases Datum.eq_or_le_of_ofInt_eq hsame with heq | hpast
      · exact .inl (List.inj_on_of_nodup_map hnumbers hother hvariant heq)
      · exact .inr ⟨rfl, hpast⟩
  | name =>
    obtain ⟨name, hname, hdeclared⟩ := exists_nameOf? hmem
    -- Names are distinct, so the name that is written leads back to the number.
    have hnumber := discriminantOf?_of_mem hnames hdeclared
    refine ⟨.string name, by rw [hencode, encodeEnum, hname], fun v => ?_,
      fun other hother h => ?_⟩
    · rw [decode, decodeEnum, hnumber]
      simp [eq_comm]
    · -- The name is that of the other variant too, and stands for one number.
      obtain ⟨otherName, hotherName, hotherDeclared⟩ :=
        exists_nameOf? (List.mem_map_of_mem hother : other.2 ∈ e.variants.map Prod.snd)
      rw [hencode, encodeEnum, hotherName] at h
      obtain rfl := Datum.string.inj (Except.ok.inj h)
      have heq := (discriminantOf?_of_mem hnames hotherDeclared).symm.trans hnumber
      exact .inl (List.inj_on_of_nodup_map hnumbers hother hvariant (Option.some.inj heq))

/-- The greatest safe number and the number right after it. -/
def neighbours : EnumType :=
  ⟨"Neighbours", [("last", 9007199254740992), ("next", 9007199254740993)]⟩

/-- The second of the two `neighbours` is read as the first. -/
theorem decode_encode_enum_neighbours :
    ((neighbours.variants.map Prod.fst).Nodup ∧ (neighbours.variants.map Prod.snd).Nodup ∧
      ("next", 9007199254740993) ∈ neighbours.variants) ∧
    ∃ d, (Leaf.enum neighbours .numeric).encode (.enum neighbours 9007199254740993) = .ok d ∧
      (Leaf.enum neighbours .numeric).decode d = .ok (.enum neighbours 9007199254740992) := by
  have hnames : (neighbours.variants.map Prod.fst).Nodup := by decide
  have hnumbers : (neighbours.variants.map Prod.snd).Nodup := by decide
  have hnext : ("next", 9007199254740993) ∈ neighbours.variants := by decide
  obtain ⟨d, hencode, hdecode, -⟩ := decode_encode_enum hnames hnumbers hnext .numeric
  exact ⟨⟨hnames, hnumbers, hnext⟩, d, hencode,
    (hdecode _).mpr (.inr ⟨rfl, by decide, by decide, rfl⟩)⟩

/-- Variants with names and numbers of their own are not always read as themselves: the second of
    the `neighbours` is not. -/
theorem not_decode_encode_enum :
    ¬ ∀ (e : EnumType) (encoding : EnumEncoding), (e.variants.map Prod.fst).Nodup →
      (e.variants.map Prod.snd).Nodup → (∀ variant ∈ e.variants, IntKind.i64.Holds variant.2) →
      ∀ variant ∈ e.variants, ∀ d, (Leaf.enum e encoding).encode (.enum e variant.2) = .ok d →
        (Leaf.enum e encoding).decode d = .ok (.enum e variant.2) ∧
        ∀ other ∈ e.variants, (Leaf.enum e encoding).encode (.enum e other.2) = .ok d →
          other = variant := by
  intro h
  -- The two neighbours are written as one number, so they would have to be one variant.
  have hlast := (h neighbours .numeric (by decide) (by decide) (by decide)
    ("next", 9007199254740993) (by decide) (Datum.ofInt 9007199254740993) rfl).2
    ("last", 9007199254740992) (by decide)
  have hsame : (Binary.ofInt 9007199254740993 : Binary64) = Binary.ofInt 9007199254740992 :=
    Datum.ofInt_eq_of_natAbs_eq rfl
  have hequal := hlast (by rw [Datum.ofInt, hsame]; rfl)
  exact absurd hequal (by decide)

end Leaf

end Codec

end DocQuery
