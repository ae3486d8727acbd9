import DocQuery.Proofs.Codec.Finite
import DocQuery.Proofs.Number.Error
import DocQuery.Proofs.Time.Offset

/-!
# Times in milliseconds

A time is written as its milliseconds over a thousand and read as a thousand times the seconds. The
quotient and the product are rounded, which the last rounding to whole milliseconds makes up for up
to about 139000 years from the epoch. From there to the place where a number of milliseconds has no
bit behind the point, some products are rounded to the middle between two milliseconds, and the last
rounding takes these away from the epoch. Behind that place all milliseconds are kept again.

## Key results

- `Codec.abs_millis_sub_le`: how far the milliseconds that are read may be from those written
- `Codec.instantOf?_epochSeconds`: which instant is read from the seconds of an instant
- `Codec.decodeTime_encodeTime`: which time is read from the document of a time
-/

namespace DocQuery.Codec

open Binary (LandsNear abs_cast_le abs_mul_sub_le abs_rounded_le abs_rounded_sub_le_of_le
  clampToInt_of_toRat? double_keeps_two_pow halfAway_rounded_of_near rounded toRat?_div toRat?_mul
  toRat?_ofInt toRat?_roundHalfAway)

/-- The number of milliseconds of every `Instant` is one of the wide format, with room to spare. -/
theorem natAbs_millis_le (t : Instant) : t.millis.natAbs ≤ 8334601228800000 := by
  obtain ⟨nanos, hleast, hgreatest⟩ := t
  simp only [Time.firstSecond, Time.lastSecond, Time.nanosPerSecond] at hleast hgreatest
  show (nanos.fdiv 1000000).natAbs ≤ _
  rw [Int.fdiv_eq_ediv_of_nonneg nanos (by omega)]
  omega

/-- As a rational, `millis` is at most `2 ^ 53` in size. -/
theorem abs_millis_le (t : Instant) : |(t.millis : Rat)| ≤ 2 ^ 53 := by
  exact (abs_cast_le (natAbs_millis_le t)).trans (by norm_num)

/-- The exact values of the seconds that `epochSeconds` writes and of the milliseconds that are
    read, each a `rounded` quotient or product. -/
theorem toRat?_epochSeconds (t : Instant) :
    (epochSeconds true t).toRat? = some (rounded Format.double (t.millis / 1000)) ∧
      (epochSeconds true t * Binary.ofInt 1000).roundHalfAway.toRat? =
        some (Rounding.halfAway (rounded Format.double
          (rounded Format.double (t.millis / 1000) * 1000)) : Rat) := by
  have hkeeps : Format.double.Keeps (2 ^ 53) := double_keeps_two_pow (by norm_num)
  have hkeeps' : Format.double.Keeps (2 ^ 63) := double_keeps_two_pow (by norm_num)
  have hmillis := toRat?_ofInt ((natAbs_millis_le t).trans (by norm_num))
  have hthousand : (Binary.ofInt 1000 : Binary64).toRat? = some 1000 := toRat?_ofInt (by norm_num)
  -- The quotient and the product stay within powers of two, so neither of them overflows.
  have hquotient : |(t.millis : Rat) / 1000| ≤ 2 ^ 53 := by
    have h := abs_millis_le t
    rw [abs_div, abs_of_pos (by norm_num : (0 : Rat) < 1000)]
    linarith [abs_nonneg (t.millis : Rat)]
  have hseconds : (epochSeconds true t).toRat? =
      some (rounded Format.double (t.millis / 1000)) := by
    rw [epochSeconds, if_pos rfl]
    exact toRat?_div Format.double_valid hkeeps hmillis hthousand (by norm_num) hquotient
  refine ⟨hseconds, toRat?_roundHalfAway ?_⟩
  refine toRat?_mul Format.double_valid hkeeps' hseconds hthousand ?_
  have h := abs_rounded_le Format.double_valid hkeeps hquotient
  rw [abs_mul, abs_of_pos (by norm_num : (0 : Rat) < 1000)]
  linarith

/-- Within `2 ^ (e + 53)` the seconds that are written are at most half a unit away from the seconds
    of the instant, which counts a thousand times in the milliseconds. -/
theorem abs_millis_sub_le (t : Instant) {e : Int} (he : -1074 ≤ e) (he' : e < 971)
    (h : |(t.millis : Rat)| ≤ 2 ^ (e + 53) * 1000) :
    |rounded Format.double (t.millis / 1000) * 1000 - t.millis| ≤ 2 ^ e * 500 := by
  have hthousand : (0 : Rat) < 1000 := by norm_num
  have hle : |(t.millis : Rat) / 1000| ≤ 2 ^ (e + Format.double.precision) := by
    rw [abs_div, abs_of_pos hthousand]
    exact (div_le_iff₀ hthousand).mpr h
  have herror := abs_rounded_sub_le_of_le Format.double_valid he he' hle
  exact (abs_mul_sub_le hthousand herror).trans_eq (by ring)

/-- The milliseconds that are read from the seconds of an instant are `t.millis`, or in the range
    where quotients are too coarse one more away from the epoch. -/
theorem millis_cases (t : Instant) {m : Int}
    (hm : m = Rounding.halfAway (rounded Format.double
      (rounded Format.double (t.millis / 1000) * 1000))) :
    m = t.millis ∨ 4398046511104000 < t.millis.natAbs ∧ t.millis.natAbs < 4503599627370496 ∧
      m = t.millis + t.millis.sign := by
  have hbound := natAbs_millis_le t
  rcases le_or_gt t.millis.natAbs 4398046511104000 with hnear | hfar
  · -- The quotient is at most 2 ^ 42, so its error makes less than a quarter of a millisecond.
    have hle : |(t.millis : Rat)| ≤ 2 ^ ((-11 : Int) + 53) * 1000 :=
      (abs_cast_le hnear).trans (by norm_num)
    have herror := abs_millis_sub_le t (by norm_num) (by norm_num) hle
    norm_num at herror
    -- Next to nothing the product has no sign to go by, so `halfAway_rounded_of_near` asks for a
    -- better bound.
    have hzero (h : t.millis = 0) :
        |rounded Format.double (t.millis / 1000) * 1000| < 1 / 4 := by
      rw [h, Int.cast_zero, sub_zero] at herror
      rw [h, Int.cast_zero]
      linarith
    rcases halfAway_rounded_of_near (herror.trans_lt (by norm_num)) (by omega) hzero with
      heq | ⟨-, hquarter, -⟩
    · exact .inl (hm.trans heq)
    · linarith
  · -- It is at most 2 ^ 43, so its error makes less than half a millisecond.
    have hle : |(t.millis : Rat)| ≤ 2 ^ ((-10 : Int) + 53) * 1000 :=
      (abs_cast_le hbound).trans (by norm_num)
    have herror := abs_millis_sub_le t (by norm_num) (by norm_num) hle
    norm_num at herror
    rcases halfAway_rounded_of_near (herror.trans_lt (by norm_num)) (by omega) (by omega) with
      heq | ⟨hlt, -, heq⟩
    · exact .inl (hm.trans heq)
    · exact .inr ⟨hfar, hlt, hm.trans heq⟩

/-- The instant that `instantOf?` reads from the seconds of an instant of whole milliseconds. -/
theorem instantOf?_epochSeconds {t : Instant} (h : (1000000 : Int) ∣ t.nanos) :
    ∃ t', instantOf? true (epochSeconds true t) = some t' ∧
      (t' = t ∨ 4398046511104000 < t.millis.natAbs ∧ t.millis.natAbs < 4503599627370496 ∧
        t'.nanos = t.nanos + t.millis.sign * 1000000) := by
  generalize hm : Rounding.halfAway (rounded Format.double
    (rounded Format.double (t.millis / 1000) * 1000)) = m
  have hmillis := millis_cases t hm.symm
  have hbound := natAbs_millis_le t
  have hrange := t.inRange
  have hsign := Int.sign_trichotomy t.millis
  have hnanos : t.nanos = t.millis * 1000000 := (Int.fdiv_mul_cancel_of_dvd h).symm
  -- Even a millisecond further away the number is one of the wide format and of an instant.
  have hle : m.natAbs ≤ 9007199254740992 := by
    rcases hmillis with rfl | ⟨-, -, rfl⟩ <;> omega
  have hword : toWord (epochSeconds true t * Binary.ofInt 1000).roundHalfAway = m := by
    refine clampToInt_of_toRat? (hm ▸ (toRat?_epochSeconds t).2) ?_ ?_ <;>
      simp only [IntKind.least, IntKind.greatest] <;> omega
  have hin : Time.firstSecond * Time.nanosPerSecond ≤ m * 1000000 ∧
      m * 1000000 < (Time.lastSecond + 1) * Time.nanosPerSecond := by
    rcases hmillis with rfl | ⟨-, hlt, rfl⟩
    · rwa [← hnanos]
    · simp only [Time.firstSecond, Time.lastSecond, Time.nanosPerSecond]
      omega
  refine ⟨⟨m * 1000000, hin⟩, ?_, ?_⟩
  · rw [instantOf?, if_pos rfl]
    simp only [hword, Instant.ofNanos?]
    exact dif_pos hin
  · rcases hmillis with rfl | ⟨hfar, hlt, rfl⟩
    · exact .inl (by cases t; simp [← hnanos])
    · -- The step of one millisecond is a million nanoseconds in the same direction.
      refine .inr ⟨hfar, hlt, ?_⟩
      rw [hnanos]
      ring

/-- A time with an offset of whole minutes is read as the instant that `instantOf?` gives of its
    seconds, and with its offset. -/
theorem decodeTime_of_instantOf? {type : Ty} {t : Zoned} (hminutes : (60 : Int) ∣ t.offset.seconds)
    {instant : Instant} (h : instantOf? true (epochSeconds true t.instant) = some instant) :
    decodeTime true type (encodeTime true t) = .ok ⟨instant, t.offset⟩ := by
  -- The members are looked up by their names, so the document unfolds to what was put in.
  have htag : (encodeTime true t).tag? = some Datum.timeTag := rfl
  have hseconds : ((encodeTime true t).get? "epoch_time").bind Datum.asNumber? =
      some (epochSeconds true t.instant) := rfl
  have hzone : (encodeTime true t).get? "timezone" = some (.string t.offset.toText) := rfl
  have hfinite := isFinite_epochSeconds true t.instant
  rw [decodeTime, if_neg (not_not.mpr htag), hseconds, hzone]
  simp only [ZoneOffset.ofText_toText hminutes, hfinite, h]
  rfl

/-- In millisecond precision `decodeTime` reads the document of a time of whole milliseconds, with
    an offset of whole minutes, as the time itself, and always with its offset. Only in the range
    between 4398046511104000 milliseconds and `2 ^ 52` milliseconds on either side of the epoch the
    instant that is read may be a millisecond further away from the epoch. -/
theorem decodeTime_encodeTime (type : Ty) {t : Zoned} (hmillis : (1000000 : Int) ∣ t.instant.nanos)
    (hminutes : (60 : Int) ∣ t.offset.seconds) :
    ∃ t', decodeTime true type (encodeTime true t) = .ok t' ∧ t'.offset = t.offset ∧
      (t' = t ∨ 4398046511104000 < t.instant.millis.natAbs ∧
        t.instant.millis.natAbs < 4503599627370496 ∧
        t'.instant.nanos = t.instant.nanos + t.instant.millis.sign * 1000000) := by
  obtain ⟨instant, hread, hinstant⟩ := instantOf?_epochSeconds hmillis
  refine ⟨⟨instant, t.offset⟩, decodeTime_of_instantOf? hminutes hread, rfl, ?_⟩
  exact hinstant.imp_left fun h => by rw [h]

/-- The last millisecond of the year 9999, on a clock nine and a half hours behind. -/
def yearEnd : Zoned := ⟨⟨253402300799999 * 1000000, by decide⟩, ⟨-34200, by decide⟩⟩

/-- The time `yearEnd` is read back; its milliseconds are in the range without exceptions. -/
theorem decodeTime_encodeTime_yearEnd :
    ((1000000 : Int) ∣ yearEnd.instant.nanos ∧ (60 : Int) ∣ yearEnd.offset.seconds) ∧
    decodeTime true .zoned (encodeTime true yearEnd) = .ok yearEnd := by
  have hmillis : (1000000 : Int) ∣ yearEnd.instant.nanos := by decide
  have hminutes : (60 : Int) ∣ yearEnd.offset.seconds := by decide
  obtain ⟨t', hread, -, hsame⟩ := decodeTime_encodeTime .zoned hmillis hminutes
  obtain rfl := hsame.resolve_right fun h => absurd h.1 (by decide)
  exact ⟨⟨hmillis, hminutes⟩, hread⟩

/-- A time some 139000 years after the epoch, in universal time. -/
def farTime : Zoned := ⟨⟨4398046511104021 * 1000000, by decide⟩, .utc⟩

/-- The time `farTime` is read a millisecond late. -/
theorem not_decodeTime_encodeTime :
    (1000000 : Int) ∣ farTime.instant.nanos ∧ (60 : Int) ∣ farTime.offset.seconds ∧
      decodeTime true .zoned (encodeTime true farTime) =
        .ok ⟨⟨4398046511104022 * 1000000, by decide⟩, .utc⟩ :=
  ⟨by decide, by decide, decodeTime_of_instantOf? (by decide) (by decide +kernel)⟩

end DocQuery.Codec
