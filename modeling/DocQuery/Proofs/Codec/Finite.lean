import DocQuery.Codec.Leaf
import DocQuery.Proofs.Datum.Finite
import DocQuery.Proofs.Number.Bounds
import DocQuery.Proofs.Schema.Naming

/-!
# Leaf codecs write finite numbers

A number is only written while it is safe or finite, and times and spans lie within ranges in which
their seconds are finite numbers. The number of a variant is written as it stands, and has 64 bits.

## Key results

- `Codec.isFinite_epochSeconds`, `Codec.isFinite_spanSeconds`: seconds are finite numbers
- `Codec.Leaf.finite_of_encode`: leaf codecs write documents with finite numbers
-/

namespace DocQuery

/-- The number of a variant has 64 bits. -/
def Value.RepresentableNode : Value → Prop
  | .enum _ discriminant => IntKind.i64.Holds discriminant
  | _ => True

/-- The numbers of variants have 64 bits at every depth. -/
abbrev Value.Representable : Value → Prop := Everywhere Value.parts Value.RepresentableNode

namespace Codec

open Binary (Bounded bounded_word double_keeps_two_pow)

/-- A whole number over a whole number that is kept exactly is `Bounded` by `2 ^ 64`. -/
theorem bounded_div {n m : Int} (hn : n.natAbs ≤ 2 ^ 64) (hpos : 1 ≤ m)
    (hm : m.natAbs ≤ 9007199254740992) :
    (Binary.ofInt n / Binary.ofInt m : Binary64).Bounded (2 ^ 64) :=
  (bounded_word hn).div Format.double_valid (double_keeps_two_pow (by omega))
    (Binary.toRat?_ofInt hm) (by exact_mod_cast hpos)

/-- Seconds and a fraction of a second give a finite number. -/
theorem isFinite_add_fraction {whole nanos : Int} (hwhole : whole.natAbs ≤ 2 ^ 64)
    (hnanos : nanos.natAbs ≤ 2 ^ 64) :
    (Binary.ofInt whole + Binary.ofInt nanos / Binary.ofInt 1000000000 : Binary64).isFinite =
      true := by
  -- The sum of two numbers up to `2 ^ 64` is at most `2 ^ 65`, which the format keeps.
  have hsum : Format.double.Keeps (2 ^ 64 + 2 ^ 64) := by
    have h := double_keeps_two_pow (n := 65) (by omega)
    rwa [pow_succ, mul_two] at h
  exact ((bounded_word hwhole).add Format.double_valid hsum
    (bounded_div hnanos (by omega) (by omega))).isFinite

/-- `epochSeconds` of an instant are a finite number in both precisions. -/
theorem isFinite_epochSeconds (millis : Bool) (t : Instant) :
    (epochSeconds millis t).isFinite = true := by
  obtain ⟨nanos, hleast, hgreatest⟩ := t
  -- The range of instants is given in nanoseconds, far less than `2 ^ 64` seconds either way.
  simp only [Time.firstSecond, Time.lastSecond, Time.nanosPerSecond] at hleast hgreatest
  rw [epochSeconds]
  split
  · refine (bounded_div ?_ (by omega) (by omega)).isFinite
    show (nanos.fdiv 1000000).natAbs ≤ 2 ^ 64
    rw [Int.fdiv_eq_ediv_of_nonneg nanos (by omega)]
    omega
  · refine isFinite_add_fraction ?_ ?_
    · show (nanos.fdiv 1000000000).natAbs ≤ 2 ^ 64
      rw [Int.fdiv_eq_ediv_of_nonneg nanos (by omega)]
      omega
    · show (nanos.fmod 1000000000).natAbs ≤ 2 ^ 64
      rw [Int.fmod_eq_emod_of_nonneg nanos (by omega)]
      omega

/-- `spanSeconds` of a span are a finite number. -/
theorem isFinite_spanSeconds (d : Span) : (spanSeconds d).isFinite = true := by
  obtain ⟨nanos, hleast, hgreatest⟩ := d
  simp only [Time.longestSpan, IntKind.greatest] at hleast hgreatest
  rw [spanSeconds]
  refine isFinite_add_fraction ?_ ?_
  · -- Spans are cut towards zero, so magnitudes are divided.
    show (nanos.tdiv 1000000000).natAbs ≤ 2 ^ 64
    rw [Int.natAbs_tdiv]
    show nanos.natAbs / 1000000000 ≤ 2 ^ 64
    omega
  · show (nanos.tmod 1000000000).natAbs ≤ 2 ^ 64
    rw [Int.natAbs_tmod]
    show nanos.natAbs % 1000000000 ≤ 2 ^ 64
    omega

namespace Leaf

theorem finite_ofInt {n : Int} (h : n.natAbs ≤ 2 ^ 64) : (Datum.ofInt n).Finite :=
  .of_leaf rfl (bounded_word h).isFinite

theorem finite_string (s : String) : (Datum.string s).Finite := .of_leaf rfl trivial

/-- What `finiteNumber` lets through is `Finite`. -/
theorem finite_of_finiteNumber {type : Ty} {x : Binary64} {d : Datum}
    (h : finiteNumber type x = .ok d) : d.Finite := by
  rw [finiteNumber] at h
  split_ifs at h with hx
  obtain rfl := Except.ok.inj h
  exact .of_leaf rfl hx

/-- `encodeTime` writes a `Finite` document: of its members only the seconds are a number. -/
theorem finite_encodeTime (millis : Bool) (t : Zoned) : (encodeTime millis t).Finite := by
  refine .intro trivial ?_
  simp only [encodeTime, Datum.parts, List.map, List.forall_mem_cons]
  exact ⟨finite_string _, .of_leaf rfl (isFinite_epochSeconds millis t.instant), finite_string _,
    List.forall_mem_nil _⟩

/-- `encodeEnum` writes a `Finite` document: the number of a variant has 64 bits, and its name is no
    number. -/
theorem finite_of_encodeEnum {e : EnumType} {encoding : EnumEncoding} {discriminant : Int}
    {d : Datum} (hn : IntKind.i64.Holds discriminant)
    (h : encodeEnum e encoding discriminant = .ok d) : d.Finite := by
  -- The bounds of `IntKind.i64` as numbers, which `omega` needs.
  simp only [IntKind.Holds, IntKind.least, IntKind.greatest] at hn
  cases encoding with
  | numeric =>
    obtain rfl := Except.ok.inj h
    exact finite_ofInt (by omega)
  | name =>
    rw [encodeEnum] at h
    split at h
    · obtain rfl := Except.ok.inj h
      exact finite_string _
    · cases h

/-- `encode` of a leaf codec writes a `Finite` document. -/
theorem finite_of_encode {codec : Leaf} {v : Value} {d : Datum} (hv : v.RepresentableNode)
    (h : codec.encode v = .ok d) : d.Finite := by
  cases codec with
  | int kind =>
    cases v with
    | int k n =>
      rw [encode] at h
      -- Only safe numbers are written, and they are far below `2 ^ 64`.
      split_ifs at h with _ hsafe
      obtain rfl := Except.ok.inj h
      simp only [Datum.maxSafeInteger] at hsafe
      exact finite_ofInt (by omega)
    | _ => cases h
  | f32 =>
    cases v with
    | f32 x => exact finite_of_finiteNumber h
    | _ => cases h
  | f64 =>
    cases v with
    | f64 x => exact finite_of_finiteNumber h
    | _ => cases h
  -- Null and texts have no numbers.
  | binary =>
    cases v with
    | null =>
      obtain rfl := Except.ok.inj h
      exact .of_leaf rfl trivial
    | binary bytes =>
      obtain rfl := Except.ok.inj h
      refine .intro trivial ?_
      simp only [encodeBinary, Datum.parts, List.map, List.forall_mem_cons]
      exact ⟨finite_string _, finite_string _, List.forall_mem_nil _⟩
    | _ => cases h
  | instant millis =>
    cases v with
    | instant t =>
      obtain rfl := Except.ok.inj h
      exact finite_encodeTime millis _
    | _ => cases h
  | zoned millis =>
    cases v with
    | zoned t =>
      obtain rfl := Except.ok.inj h
      exact finite_encodeTime millis t
    | _ => cases h
  | span =>
    cases v with
    | span d =>
      obtain rfl := Except.ok.inj h
      exact .of_leaf rfl (isFinite_spanSeconds d)
    | _ => cases h
  | enum e encoding =>
    cases v with
    | enum other discriminant =>
      rw [encode] at h
      split_ifs at h
      exact finite_of_encodeEnum hv h
    | _ => cases h
  | _ =>
    -- The other codecs write no numbers.
    cases v <;> cases h
    all_goals exact .of_leaf rfl trivial

end Leaf

end Codec

end DocQuery
