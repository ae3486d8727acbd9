import DocQuery.Codec.Leaf
import DocQuery.Proofs.Datum.Wire
import DocQuery.Proofs.Number.Bounds
import DocQuery.Proofs.Schema.Naming
import DocQuery.Proofs.Text.Base64
import DocQuery.Proofs.Text.Uuid

/-!
# Values that leaf codecs give back

Documents keep whole numbers without gaps, finite floating point numbers, texts, bytes and the
variants of enumerations whose names and numbers are distinct. What a leaf codec writes of such
values it reads back.

## Key results

- `Codec.narrowTo_eq_ok_iff`: the numbers that are read as whole numbers
- `Codec.greatestSingle_lt_eq_false`: no number of the narrow format is refused
- `Codec.decodeEnum_encodeEnum`: a variant reads back by number and by name
- `Codec.Leaf.decode_of_encode`: what a leaf codec writes it reads back
-/

namespace DocQuery

/-! ## Types and values that documents keep -/

/-- The names of an enumeration are distinct, and its numbers are at most `maxSafeInteger` in size,
    so documents keep them. -/
structure EnumType.Kept (e : EnumType) : Prop where
  names_nodup : (e.variants.map Prod.fst).Nodup
  safe : ∀ variant ∈ e.variants, variant.2.natAbs ≤ Datum.maxSafeInteger

namespace Ty

/-- The values of the type go through documents unchanged if those of its components do. Times do
    not, for their precision, and `dynamic` values lose their types. -/
def KeptNode : Ty → Prop
  | dynamic | instant | zoned | span => False
  | tuple items => items ≠ []
  | enum e => e.Kept
  | record r =>
    (r.fields.map Field.wireName).Nodup ∧ Datum.tagKey ∉ r.fields.map Field.wireName
  | _ => True

/-- A type whose values go through documents unchanged: `KeptNode` at every depth. -/
abbrev Kept : Ty → Prop := Everywhere components KeptNode

end Ty

namespace Value

/-- Locators read back from their texts, discriminants are declared, the entries of maps are in the
    order of their keys, none of which is `tagKey`, and records have a value for each field. -/
def IntactNode : Value → Prop
  | url u => Url.ofText? u.text = some u
  | enum e discriminant => discriminant ∈ e.variants.map Prod.snd
  | map entries =>
    (entries.map Prod.fst).Pairwise (· < ·) ∧ Datum.tagKey ∉ entries.map Prod.fst
  | record r fields => fields.length = r.fields.length
  | _ => True

/-- A value that is intact at every depth, by `IntactNode`. -/
abbrev Intact : Value → Prop := Everywhere parts IntactNode

end Value

namespace Codec

/-! ## Numbers -/

/-- The greatest whole number type, `i64`, has all safe numbers. -/
theorem holds_of_natAbs_le {n : Int} (h : n.natAbs ≤ Datum.maxSafeInteger) :
    IntKind.i64.Holds n := by
  simp only [Datum.maxSafeInteger] at h
  constructor <;> simp only [IntKind.least, IntKind.greatest] <;> omega

/-- The least number that is read, `leastRead`, is a whole number, also where it is not that of the
    type. -/
theorem leastRead_eq (kind : IntKind) :
    leastRead kind = Binary.ofInt (max kind.least (-Datum.maxSafeInteger)) := by
  cases kind <;> decide +kernel

/-- The greatest number that is read, `greatestRead`, is a whole number: that of the type is rounded
    up only where it is past the safe ones. -/
theorem greatestRead_eq (kind : IntKind) :
    greatestRead kind = Binary.ofInt (min kind.greatest Datum.maxSafeInteger) := by
  cases kind <;> decide +kernel

/-- The exact value of `leastRead`. -/
theorem toRat?_leastRead (kind : IntKind) :
    (leastRead kind).toRat? = some ((max kind.least (-Datum.maxSafeInteger) : Int) : Rat) := by
  rw [leastRead_eq]
  -- Both bounds are safe, and conversion to a number is exact for those.
  exact Binary.toRat?_ofInt (by cases kind <;> decide)

/-- The exact value of `greatestRead`. -/
theorem toRat?_greatestRead (kind : IntKind) :
    (greatestRead kind).toRat? = some ((min kind.greatest Datum.maxSafeInteger : Int) : Rat) := by
  rw [greatestRead_eq]
  exact Binary.toRat?_ofInt (by cases kind <;> decide)

variable {kind : IntKind} {x : Binary64}

/-- A number without an exact value is `outOfRange` for every type. -/
theorem narrowTo_of_toRat?_eq_none (hx : x.toRat? = none) :
    narrowTo kind x = .error (.number x .outOfRange kind.name) := by
  have hfinite : x.isFinite = false := by
    cases x with
    | finite => cases hx
    | _ => rfl
  rw [narrowTo, hfinite]
  rfl

/-- A number with a fraction is refused as `fractional`, also where it is out of range. -/
theorem narrowTo_of_fraction {q : Rat} (hx : x.toRat? = some q) (hq : q.den ≠ 1) :
    narrowTo kind x = .error (.number x .fractional kind.name) := by
  have hintegral : x.isIntegral = false := by simp [Binary.isIntegral, hx, Rounding.isIntegral, hq]
  rw [narrowTo, Binary.isFinite_of_toRat? hx, hintegral]
  rfl

/-- A whole number is read by `narrowTo` where it is within the bounds of the type and safe. -/
theorem narrowTo_of_whole {n : Int} (hx : x.toRat? = some (n : Rat)) :
    narrowTo kind x =
      if h : kind.Holds n ∧ n.natAbs ≤ Datum.maxSafeInteger then .ok ⟨n, h.1⟩
      else .error (.number x .outOfRange kind.name) := by
  have hintegral : x.isIntegral = true := by simp [Binary.isIntegral, hx, Rounding.isIntegral]
  -- The comparisons with the rounded bounds are those with the exact ones.
  have hleast : x.lt (leastRead kind) = true ↔ n < max kind.least (-Datum.maxSafeInteger) := by
    rw [Binary.lt_iff_of_toRat? hx (toRat?_leastRead kind), Int.cast_lt]
  have hgreatest : (greatestRead kind).lt x = true ↔
      min kind.greatest Datum.maxSafeInteger < n := by
    rw [Binary.lt_iff_of_toRat? (toRat?_greatestRead kind) hx, Int.cast_lt]
  rw [narrowTo, Binary.isFinite_of_toRat? hx, hintegral]
  simp only [Bool.not_true, Bool.false_eq_true, if_false, Bool.or_eq_true, hleast, hgreatest]
  by_cases h : kind.Holds n ∧ n.natAbs ≤ Datum.maxSafeInteger
  · obtain ⟨hholds, hsafe⟩ := h
    have hwide : Value.leastWide ≤ n ∧ n ≤ Value.greatestWide := by
      simp only [Datum.maxSafeInteger] at hsafe
      simp only [Value.leastWide, Value.greatestWide]
      omega
    -- What passes the comparisons fits the wide integers, so clamping leaves it as it is.
    have hinside : ¬(n < max kind.least (-Datum.maxSafeInteger) ∨
        min kind.greatest Datum.maxSafeInteger < n) := by
      have := hholds.1
      have := hholds.2
      omega
    have hvalue := Binary.clampToInt_of_toRat? hx hwide.1 hwide.2
    simp only [if_neg hinside, hvalue, dif_pos hholds]
    rw [dif_pos ⟨hholds, hsafe⟩]
  · -- A number that misses either condition lies past one of the two bounds.
    have houtside : n < max kind.least (-Datum.maxSafeInteger) ∨
        min kind.greatest Datum.maxSafeInteger < n := by
      by_contra hinside
      refine h ⟨⟨?_, ?_⟩, ?_⟩ <;> omega
    rw [if_pos houtside, dif_neg h]

/-- What `narrowTo` reads as `n` is exactly `n`, and safe; and all such numbers are read. -/
theorem narrowTo_eq_ok_iff {n : kind.Number} :
    narrowTo kind x = .ok n ↔
      x.toRat? = some (n.val : Rat) ∧ n.val.natAbs ≤ Datum.maxSafeInteger := by
  constructor
  · intro h
    cases hx : x.toRat? with
    | none =>
      rw [narrowTo_of_toRat?_eq_none hx] at h
      cases h
    | some q =>
      by_cases hq : q.den = 1
      · have hwhole : q = (q.num : Rat) := (Rat.coe_int_num_of_den_eq_one hq).symm
        rw [narrowTo_of_whole (hx.trans (congrArg some hwhole))] at h
        split_ifs at h with hread
        obtain rfl := Except.ok.inj h
        exact ⟨congrArg some hwhole, hread.2⟩
      · -- Without a whole value the outcome is an error, so there is nothing to show.
        rw [narrowTo_of_fraction hx hq] at h
        cases h
  · rintro ⟨hx, hsafe⟩
    rw [narrowTo_of_whole hx, dif_pos ⟨n.property, hsafe⟩]

/-- A safe whole number reads back from the number that `ofInt` gives. -/
theorem narrowTo_ofInt (n : kind.Number) (h : n.val.natAbs ≤ Datum.maxSafeInteger) :
    narrowTo kind (Binary.ofInt n.val) = .ok n :=
  narrowTo_eq_ok_iff.mpr ⟨Binary.toRat?_ofInt h, h⟩

/-- What `narrowTo` reads is a safe integer. -/
theorem safeInteger?_of_narrowTo {n : kind.Number} (h : narrowTo kind x = .ok n) :
    Datum.safeInteger? x = some n.val :=
  Datum.safeInteger?_eq_some_iff.mpr (narrowTo_eq_ok_iff.mp h)

/-- A safe integer within the bounds of the type is read by `narrowTo` as the whole number that it
    is. -/
theorem narrowTo_of_safeInteger? {n : Int} (hn : kind.Holds n)
    (h : Datum.safeInteger? x = some n) : narrowTo kind x = .ok ⟨n, hn⟩ :=
  narrowTo_eq_ok_iff.mpr (Datum.safeInteger?_eq_some_iff.mp h)

/-- The greatest number of the narrow format, 24 ones shifted by 104, has its value in the wide
    one. -/
theorem toRat?_greatestSingle :
    Leaf.greatestSingle.toRat? = some (16777215 * 2 ^ (104 : Int) : Rat) := by
  have hvalue : Binary.exact false 16777215 Format.single.maxExp = 16777215 * 2 ^ (104 : Int) := by
    simp [Binary.exact, Format.single]
  have hpos : (0 : Rat) ≤ 16777215 * 2 ^ (104 : Int) := by positivity
  rw [Leaf.greatestSingle, Binary.ofRat, hvalue]
  refine Binary.toRat?_round Format.double_valid ?_ false
  -- The value has a canonical form in the narrow format, and the wide one keeps all of those.
  rw [Rat.abs_of_nonneg hpos]
  have hgreatest : Format.single.Canonical 16777215 104 := by decide
  exact_mod_cast Binary.double_keeps_of_single hgreatest

/-- A number that is not past `greatestSingle` stays finite in the narrow format. -/
theorem isFinite_convert_single {x : Binary64} (hx : x.isFinite = true)
    (h : Leaf.greatestSingle.lt x.abs = false) : (x.convert Format.single).isFinite = true := by
  have hkeeps : Format.single.Keeps (16777215 * 2 ^ (104 : Int)) :=
    ⟨16777215, 104, by norm_num, by decide, by decide, by decide⟩
  exact Binary.isFinite_convert Format.single_valid toRat?_greatestSingle hkeeps hx h

/-- No finite number of the narrow format is past `greatestSingle`, so none is refused after it was
    widened. -/
theorem greatestSingle_lt_eq_false {x : Binary32} (h : x.isFinite = true) :
    Leaf.greatestSingle.lt (x.convert Format.double).abs = false := by
  cases x with
  | nan => cases h
  | infinity a => cases h
  | finite n m e hme =>
    obtain ⟨m', e', hme', hround, hvalue⟩ :=
      Binary.round_exact_of_keeps Format.double_valid n (Binary.double_keeps_of_single hme)
    have habs : ((Binary.finite n m e hme : Binary32).convert Format.double).abs.toRat? =
        some ((m : Rat) * 2 ^ e) := by
      rw [Binary.convert, hround, Binary.abs, Binary.toRat?, Binary.exact, if_neg (by decide),
        hvalue]
    -- Mantissa and exponent are each at most those of the greatest number.
    refine Binary.lt_eq_false_of_le toRat?_greatestSingle habs ?_
    obtain ⟨hmant, -, hexp, -⟩ := hme
    have hmant : (m : Rat) ≤ 16777215 := by exact_mod_cast Nat.le_of_lt_succ hmant
    have hpow : (2 : Rat) ^ e ≤ 2 ^ (104 : Int) := zpow_le_zpow_right₀ (by norm_num) hexp
    gcongr

/-! ## Enumerations -/

/-- The first variant with a declared number is found by `nameOf?`, and it is one of the
    enumeration. -/
theorem exists_nameOf? {e : EnumType} {discriminant : Int}
    (h : discriminant ∈ e.variants.map Prod.snd) :
    ∃ name, e.nameOf? discriminant = some name ∧ (name, discriminant) ∈ e.variants := by
  obtain ⟨variant, hmem, rfl⟩ := List.mem_map.mp h
  obtain ⟨found, hfound⟩ : ∃ found, e.variants.find? (fun v => v.2 == variant.2) = some found := by
    rw [← Option.isSome_iff_exists, List.find?_isSome]
    exact ⟨variant, hmem, by simp⟩
  have hsame : found.2 = variant.2 := by simpa using List.find?_some hfound
  -- The variant that is found may be another one with the same number.
  refine ⟨found.1, by rw [EnumType.nameOf?, hfound]; rfl, ?_⟩
  rw [← hsame]
  exact List.mem_of_find?_eq_some hfound

/-- Where names are distinct, `discriminantOf?` gives the number of the variant with the name. -/
theorem discriminantOf?_of_mem {e : EnumType} {name : String} {discriminant : Int}
    (hnodup : (e.variants.map Prod.fst).Nodup) (h : (name, discriminant) ∈ e.variants) :
    e.discriminantOf? name = some discriminant := by
  rw [EnumType.discriminantOf?, (Members.find?_key_eq_some_iff hnodup).mpr ⟨h, rfl⟩]
  rfl

/-- A declared variant reads back in either encoding, and `encodeEnum` does not write it as null. -/
theorem decodeEnum_encodeEnum {e : EnumType} (he : e.Kept) {discriminant : Int}
    (h : discriminant ∈ e.variants.map Prod.snd) (encoding : EnumEncoding) {d : Datum}
    (hencode : encodeEnum e encoding discriminant = .ok d) :
    d.isNull = false ∧ decodeEnum e encoding d = .ok (.enum e discriminant) := by
  obtain ⟨name, hname, hmem⟩ := exists_nameOf? h
  cases encoding with
  | numeric =>
    obtain rfl := Except.ok.inj hencode
    -- A safe integer passes the checks that reading a number makes.
    have hsafe : discriminant.natAbs ≤ Datum.maxSafeInteger := he.safe _ hmem
    refine ⟨rfl, ?_⟩
    rw [Datum.ofInt, decodeEnum, narrowTo_ofInt ⟨discriminant, holds_of_natAbs_le hsafe⟩ hsafe]
    simp only [bind, Except.bind, hname, Option.map_some]
  | name =>
    rw [encodeEnum, hname] at hencode
    obtain rfl := Except.ok.inj hencode
    refine ⟨rfl, ?_⟩
    rw [decodeEnum, discriminantOf?_of_mem he.names_nodup hmem]

/-! ## Bytes -/

/-- What `encodeBinary` writes of some bytes is read as those bytes. -/
theorem decodeBinary_encodeBinary (bytes : List UInt8) :
    decodeBinary (encodeBinary bytes) = .ok (.binary bytes) := by
  -- What is written has both members that reading looks for.
  have htag : (encodeBinary bytes).tag? = some Datum.binaryTag := by
    simp [encodeBinary, Datum.tag?, Datum.get?, Members.get?, Datum.asString?]
  have hdata : ((encodeBinary bytes).get? "data").bind Datum.asString? =
      some (Base64.encode bytes) := by
    simp [encodeBinary, Datum.get?, Members.get?, Datum.asString?, Datum.tagKey]
  rw [decodeBinary, if_neg (by rw [htag]; exact not_not_intro rfl), hdata]
  simp only [Base64.decode?_encode]

/-- Bytes are read from the text in the `data` of an object with the binary tag, which is base64. -/
theorem exists_of_decodeBinary {d : Datum} {v : Value} (h : decodeBinary d = .ok v) :
    ∃ bytes text, v = .binary bytes ∧ d.tag? = some Datum.binaryTag ∧
      d.get? "data" = some (.string text) ∧ Base64.decode? text = some bytes := by
  rw [decodeBinary] at h
  -- The tag has to be that of bytes, or decoding fails.
  split_ifs at h with htag
  split at h
  · cases h
  · rename_i text htext
    -- The data member is there and holds a text.
    obtain ⟨data, hdata, hstring⟩ := Option.bind_eq_some_iff.mp htext
    -- The text has to be base64.
    split at h
    · rename_i bytes hbytes
      cases data with
      | string s =>
        obtain rfl := Option.some.inj hstring
        exact ⟨bytes, s, (Except.ok.inj h).symm, not_not.mp htag, hdata, hbytes⟩
      | _ => cases hstring
    · cases h

/-! ## All leaf codecs -/

/-- A datum that is not null and that `leaf` reads back as the value itself. -/
private theorem reads_back_self {leaf : Leaf} {v : Value} {d : Datum} (hnull : d.isNull = false)
    (hdecode : leaf.decode d = .ok v) (hsame : v.same v = true) :
    (d.isNull = true → v = .null) ∧ ∃ v', leaf.decode d = .ok v' ∧ v'.same v = true := by
  refine ⟨fun h => ?_, v, hdecode, hsame⟩
  rw [hnull] at h
  cases h

/-- What a leaf codec writes it reads back as the `same` value, and it writes null only for null. -/
theorem Leaf.decode_of_encode {names : Naming} {leaf : Leaf} (hleaf : leaf.type.KeptNode)
    (hnamed : names.Declares leaf.type) {v : Value} (hv : v.Named names) (hintact : v.IntactNode)
    {d : Datum} (hencode : leaf.encode v = .ok d) :
    (d.isNull = true → v = .null) ∧ ∃ v', leaf.decode d = .ok v' ∧ v'.same v = true := by
  -- Each codec writes the values of its type only, and the binary one also null.
  cases leaf with
  | bool =>
    cases v with
    | bool b =>
      obtain rfl := Except.ok.inj hencode
      exact reads_back_self rfl rfl (by simp [Value.same])
    | _ => cases hencode
  | char =>
    cases v with
    | char c =>
      obtain rfl := Except.ok.inj hencode
      have hread : Leaf.decode .char (.string (String.singleton c)) = .ok (.char c) := by
        rw [decode, String.toList_singleton]
      exact reads_back_self rfl hread (by simp [Value.same])
    | _ => cases hencode
  | string =>
    cases v with
    | string s =>
      obtain rfl := Except.ok.inj hencode
      exact reads_back_self rfl rfl (by simp [Value.same])
    | _ => cases hencode
  | int kind =>
    -- A whole number is written only where its kind is that of the codec and it is safe.
    cases v with
    | int k n =>
      rw [encode] at hencode
      split_ifs at hencode with hkind hsafe
      obtain rfl := not_not.mp hkind
      obtain rfl := Except.ok.inj hencode
      have hread : Leaf.decode (.int k) (Datum.ofInt n.val) = .ok (.int k n) := by
        rw [Datum.ofInt, decode, narrow, narrowTo_ofInt n hsafe]
        rfl
      exact reads_back_self rfl hread (by simp [Value.same])
    | _ => cases hencode
  | f32 =>
    cases v with
    | f32 x =>
      rw [encode, finiteNumber] at hencode
      split_ifs at hencode with hfinite
      obtain rfl := Except.ok.inj hencode
      -- Rounding to the narrow format is exact for what came from it.
      have hx : x.isFinite = true := by
        cases x <;> first | exact hfinite | rfl
      have hread : Leaf.decode .f32 (.number (x.convert Format.double)) = .ok (.f32 x) := by
        rw [decode, greatestSingle_lt_eq_false hx, if_neg (by decide), Binary.convert_convert]
      exact reads_back_self rfl hread (by rw [Value.same, Binary.beq_self_of_isFinite hx])
    | _ => cases hencode
  | f64 =>
    cases v with
    | f64 x =>
      rw [encode, finiteNumber] at hencode
      split_ifs at hencode with hfinite
      obtain rfl := Except.ok.inj hencode
      exact reads_back_self rfl rfl (by rw [Value.same, Binary.beq_self_of_isFinite hfinite])
    | _ => cases hencode
  | uuid =>
    cases v with
    | uuid id =>
      obtain rfl := Except.ok.inj hencode
      have hread : Leaf.decode .uuid (.string id.toText) = .ok (.uuid id) := by
        rw [decode, Uuid.ofText?_toText]
      exact reads_back_self rfl hread (by simp [Value.same])
    | _ => cases hencode
  | url =>
    cases v with
    | url u =>
      obtain rfl := Except.ok.inj hencode
      -- That the text of a locator gives the locator back is part of being intact.
      have hu : Url.ofText? u.text = some u := hintact
      have hread : Leaf.decode .url (.string u.text) = .ok (.url u) := by rw [decode, hu]
      exact reads_back_self rfl hread (by simp [Value.same])
    | _ => cases hencode
  | binary =>
    cases v with
    | binary bytes =>
      obtain rfl := Except.ok.inj hencode
      exact reads_back_self rfl (decodeBinary_encodeBinary bytes) (by simp [Value.same])
    | null =>
      obtain rfl := Except.ok.inj hencode
      exact ⟨fun _ => rfl, .null, rfl, by simp [Value.same]⟩
    | _ => cases hencode
  | enum e encoding =>
    cases v with
    | enum other discriminant =>
      rw [encode] at hencode
      split_ifs at hencode with hname
      -- Over one naming, an enumeration is known by its name.
      have hother : names.enum other.name = other := hv.at_top.at_top
      have he : names.enum e.name = e := hnamed
      obtain rfl : other = e := by rw [← hother, hname, he]
      obtain ⟨hnull, hdecode⟩ := decodeEnum_encodeEnum hleaf hintact encoding hencode
      exact reads_back_self hnull hdecode (by simp [Value.same])
    | _ => cases hencode
  | instant millis | zoned millis | span => exact hleaf.elim

end Codec

end DocQuery
