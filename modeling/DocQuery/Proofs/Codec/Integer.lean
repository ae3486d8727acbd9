import DocQuery.Proofs.Codec.Leaf
import DocQuery.Proofs.Sequence

/-!
# Whole numbers in documents

Of the numbers of documents a whole number type reads exactly those that are whole, safe and within
its bounds, as what they are. All other finite numbers are refused for their fraction, if they have
one, or else for their range. What the type writes are its safe numbers, and those it reads back.

## Key results

- `Codec.narrowTo_cases`: the outcomes of reading a number
- `Codec.Leaf.decode_int_outcomes`: which numbers are read, which are written, and the errors
-/

namespace DocQuery

/-- A finite number that is not whole; `toRat?` is its exact value. -/
def Binary.HasFraction {F : Format} (x : Binary F) : Prop :=
  ∃ q : Rat, x.toRat? = some q ∧ ∀ n : Int, q ≠ n

namespace Codec

variable {kind : IntKind} {x : Binary64}

/-- The number is exactly `n`, which has the type `kind`, and `n` is safe. -/
def IsSafely (x : Binary64) (n : kind.Number) : Prop :=
  x.toRat? = some (n.val : Rat) ∧ n.val.natAbs ≤ Datum.maxSafeInteger

/-- A number that `IsSafely` one of the type has no fraction. -/
theorem IsSafely.not_hasFraction {n : kind.Number} (h : IsSafely x n) : ¬x.HasFraction := by
  rintro ⟨q, hq, hfraction⟩
  exact hfraction n.val (Option.some.inj (hq.symm.trans h.1))

/-- Every number is read, or refused as `fractional`, or refused as `outOfRange`, by what it is. -/
theorem narrowTo_cases (kind : IntKind) (x : Binary64) :
    (∃ n : kind.Number, IsSafely x n ∧ narrowTo kind x = .ok n) ∨
    (x.HasFraction ∧ narrowTo kind x = .error (.number x .fractional kind.name)) ∨
    ((¬∃ n : kind.Number, IsSafely x n) ∧ ¬x.HasFraction ∧
      narrowTo kind x = .error (.number x .outOfRange kind.name)) := by
  cases hx : x.toRat? with
  | none =>
    -- Infinities and "not a number" have no exact value.
    refine .inr (.inr ⟨?_, ?_, narrowTo_of_toRat?_eq_none hx⟩)
    · rintro ⟨n, hn, -⟩
      simp [hx] at hn
    · rintro ⟨q, hq, -⟩
      simp [hx] at hq
  | some q =>
    by_cases hq : q.den = 1
    · have hwhole : x.toRat? = some (q.num : Rat) := by
        rw [hx, Rat.coe_int_num_of_den_eq_one hq]
      -- A number has one exact value, so any whole number it may be is the numerator of this one.
      have hvalue (n : Int) (hn : x.toRat? = some (n : Rat)) : q.num = n := by
        have hcast : (q.num : Rat) = n := Option.some.inj (hwhole.symm.trans hn)
        exact_mod_cast hcast
      by_cases hread : kind.Holds q.num ∧ q.num.natAbs ≤ Datum.maxSafeInteger
      · refine .inl ⟨⟨q.num, hread.1⟩, ⟨hwhole, hread.2⟩, ?_⟩
        rw [narrowTo_of_whole hwhole, dif_pos hread]
      · -- Whole but too large, for the type or for a document: this is no matter of fractions.
        refine .inr (.inr ⟨?_, ?_, ?_⟩)
        · rintro ⟨n, hn, hsafe⟩
          rw [hvalue n.val hn] at hread
          exact hread ⟨n.property, hsafe⟩
        · rintro ⟨r, hr, hfraction⟩
          exact hfraction q.num (Option.some.inj (hr.symm.trans hwhole))
        · rw [narrowTo_of_whole hwhole, dif_neg hread]
    · refine .inr (.inl ⟨⟨q, hx, ?_⟩, narrowTo_of_fraction hx hq⟩)
      rintro n rfl
      exact hq (Rat.den_intCast n)

/-- The numbers that `narrowTo` refuses as `fractional` are those that have a fraction. -/
theorem narrowTo_eq_fractional_iff :
    narrowTo kind x = .error (.number x .fractional kind.name) ↔ x.HasFraction := by
  rcases narrowTo_cases kind x with ⟨n, hn, h⟩ | ⟨hx, h⟩ | ⟨-, hx, h⟩
  · simp [h, hn.not_hasFraction]
  · simp [h, hx]
  · simp [h, hx]

/-- The numbers that `narrowTo` refuses as `outOfRange` are the ones that are neither safely of the
    type nor fractions. -/
theorem narrowTo_eq_outOfRange_iff :
    narrowTo kind x = .error (.number x .outOfRange kind.name) ↔
      (¬∃ n : kind.Number, IsSafely x n) ∧ ¬x.HasFraction := by
  rcases narrowTo_cases kind x with ⟨n, hn, h⟩ | ⟨hx, h⟩ | ⟨hn, hx, h⟩
  · have hread : ∃ n : kind.Number, IsSafely x n := ⟨n, hn⟩
    simp [h, hread]
  · simp [h, hx]
  · simp [h, hn, hx]

namespace Leaf

theorem decode_int (kind : IntKind) (x : Binary64) :
    (Leaf.int kind).decode (.number x) = (narrowTo kind x).map (.int kind) := rfl

/-- A number is refused by the codec with the error that `narrowTo` gives. -/
theorem decode_int_eq_error_iff {e : Error} :
    (Leaf.int kind).decode (.number x) = .error e ↔ narrowTo kind x = .error e := by
  rw [decode_int]
  cases narrowTo kind x <;> simp [Except.map]

/-- A number is read by the codec exactly where it `IsSafely` one of the type, and as that one. -/
theorem decode_int_eq_ok_iff {v : Value} :
    (Leaf.int kind).decode (.number x) = .ok v ↔
      ∃ n : kind.Number, IsSafely x n ∧ v = .int kind n := by
  rw [decode_int]
  constructor
  · -- Both directions are those of `narrowTo`, under the constructor.
    intro h
    obtain ⟨n, hn, hv⟩ := Sequence.exists_of_map_eq_ok h
    exact ⟨n, narrowTo_eq_ok_iff.mp hn, hv.symm⟩
  · rintro ⟨n, hn, rfl⟩
    rw [narrowTo_eq_ok_iff.mpr hn]
    rfl

/-- Numbers of the type are written while they are at most `maxSafeInteger` in size. -/
theorem encode_int (n : kind.Number) :
    (Leaf.int kind).encode (.int kind n) =
      if n.val.natAbs ≤ Datum.maxSafeInteger then .ok (Datum.ofInt n.val)
      else .error (.number (Binary.ofInt n.val) .outOfRange kind.name) :=
  if_neg (not_not.mpr rfl)

/-- For every number `x`, `decode` gives a value exactly where `x` is finite, whole, within the
    bounds of the type and safe, and the value then equals `x`; it gives `fractional` exactly where
    `x` is finite and not whole, and `outOfRange` in every other case. A number of the type is
    written exactly where it is safe, and what `encode` gives is read as that number. -/
theorem decode_int_outcomes (kind : IntKind) :
    (∀ x : Binary64,
      (∀ v, (Leaf.int kind).decode (.number x) = .ok v ↔
        ∃ n : kind.Number, IsSafely x n ∧ v = .int kind n) ∧
      ((Leaf.int kind).decode (.number x) = .error (.number x .fractional kind.name) ↔
        x.HasFraction) ∧
      ((Leaf.int kind).decode (.number x) = .error (.number x .outOfRange kind.name) ↔
        (¬∃ n : kind.Number, IsSafely x n) ∧ ¬x.HasFraction)) ∧
    ∀ n : kind.Number,
      ((∃ d, (Leaf.int kind).encode (.int kind n) = .ok d) ↔
        n.val.natAbs ≤ Datum.maxSafeInteger) ∧
      ∀ d, (Leaf.int kind).encode (.int kind n) = .ok d →
        (Leaf.int kind).decode d = .ok (.int kind n) := by
  constructor
  · intro x
    exact ⟨fun v => decode_int_eq_ok_iff,
      decode_int_eq_error_iff.trans narrowTo_eq_fractional_iff,
      decode_int_eq_error_iff.trans narrowTo_eq_outOfRange_iff⟩
  · intro n
    rw [encode_int]
    by_cases hsafe : n.val.natAbs ≤ Datum.maxSafeInteger
    · -- Safe numbers are exact in documents, so they are read as themselves.
      have hread := decode_int_eq_ok_iff.mpr ⟨n, ⟨Binary.toRat?_ofInt hsafe, hsafe⟩, rfl⟩
      rw [if_pos hsafe]
      refine ⟨⟨fun _ => hsafe, fun _ => ⟨_, rfl⟩⟩, fun d hd => ?_⟩
      obtain rfl := Except.ok.inj hd
      exact hread
    · simp [hsafe]

end Leaf

end Codec

end DocQuery
