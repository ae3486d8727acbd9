import DocQuery.Proofs.Codec.Build
import DocQuery.Proofs.Codec.RoundTrip
import DocQuery.Proofs.Codec.Transparent

/-!
# Typed round trips

The default chain builds for every type whose values documents keep a converter that gives back
what it wrote. With what the cache does not change, an engine reads back an equal value from the
document that it wrote, whatever it was asked for before and in between.

## Key results

- `Factory.roundTrips_of_build`: converters of the default chain give back what they wrote
- `Engine.decode_encode`: an engine gives back what it wrote
-/

namespace DocQuery

open Sequence (collect exists_of_bind_eq_ok exists_of_map_eq_ok)

namespace Factory

variable {settings : Settings} {c : Converter}

/-! ## Round trips of what it builds -/

open Converter (RoundTrips PartsRoundTrip encodeWith encodersWith decodeWith decodersWith)

variable {names : Naming} {writeStep : Value → Except Error Datum}
  {readStep : Datum → Except Error Value}

/-- The converter of a leaf codec of `leaf?` gives back what it wrote: with the codec at hand, the
    dynamic steps are never taken, and `decode_of_encode` does the rest over the kept type. -/
theorem roundTrips_leaf (settings : Settings) {t : Ty} {codec : Codec.Leaf}
    (hleaf : leaf? settings t = some codec) (ht : names.Declares t) (hkept : t.KeptNode) :
    RoundTrips names (encodeWith writeStep (.leaf codec)) (decodeWith readStep (.leaf codec)) := by
  -- The chain hands out each codec for its own type only.
  have htype : codec.type = t := by
    cases t <;> first | (obtain rfl := Option.some.inj hleaf; rfl) | cases hleaf
  rw [← htype] at ht hkept
  intro v hv d hwrite
  -- A codec has no effects but errors, so the converter writes what the codec does.
  have hwrite : codec.encode v = .ok d := by
    rw [encodeWith] at hwrite
    cases hencode : codec.encode v <;> rw [hencode] at hwrite
    · cases hwrite
    · exact hwrite
  obtain ⟨hnull, v', hread, hsame⟩ :=
    Codec.Leaf.decode_of_encode hkept ht (hv.imp fun _ h => h.1) hv.at_top.2 hwrite
  refine ⟨hnull, v', ?_, hsame⟩
  rw [decodeWith, hread]
  rfl

/-- Converters that give back what they wrote do so at their places, where `collect` builds one for
    each type. -/
theorem partsRoundTrip_of_collect {ts : List Ty} {cs : List Converter}
    (hcs : collect (build (defaults settings)) ts = .ok cs)
    (h : ∀ t ∈ ts, ∀ c, build (defaults settings) t = .ok c →
      RoundTrips names (encodeWith writeStep c) (decodeWith readStep c)) :
    PartsRoundTrip names (encodersWith writeStep cs) (decodersWith readStep cs) := by
  -- Induction on the types, along with which the converters were collected.
  induction ts generalizing cs with
  | nil =>
    obtain rfl := Except.ok.inj hcs
    exact .nil
  | cons t ts ih =>
    obtain ⟨c, hc, hcs⟩ := exists_of_bind_eq_ok hcs
    obtain ⟨cs, hcs', hcs⟩ := exists_of_bind_eq_ok hcs
    obtain rfl := Except.ok.inj hcs
    exact .cons (h t (.head _) c hc) (ih hcs' fun t ht => h t (.tail _ ht))

theorem length_encodersWith (cs : List Converter) :
    (encodersWith writeStep cs).length = cs.length := by
  induction cs with
  | nil => rfl
  | cons c cs ih => rw [encodersWith, List.length_cons, ih, List.length_cons]

/-- What the default chain builds for a type whose values documents keep gives back what it wrote,
    by `RoundTrips`. -/
theorem roundTrips_of_build (htuple : settings.tupleEncoding = true) {t : Ty}
    (hkept : t.Kept) (ht : t.Named names) (h : build (defaults settings) t = .ok c) :
    RoundTrips names (encodeWith writeStep c) (decodeWith readStep c) := by
  -- By induction on the type: containers go together where their parts do.
  induction hkept generalizing c with
  | @intro t top rest ih =>
    have hparts : ∀ child ∈ t.components, ∀ c, build (defaults settings) child = .ok c →
        RoundTrips names (encodeWith writeStep c) (decodeWith readStep c) :=
      fun child hchild c hc => ih child hchild (ht.at_part hchild) hc
    -- Each container is built of what is built for its components, as its round trip asks.
    cases t with
    | option inner =>
      rw [build_option] at h
      obtain ⟨inner', hinner, rfl⟩ := exists_of_map_eq_ok h
      have hround := (hparts inner (.head _) inner' hinner).nullable
      exact hround.congr (fun v => by rw [encodeWith]) fun d => by rw [decodeWith]
    | list element =>
      rw [build_list] at h
      obtain ⟨element', helement, rfl⟩ := exists_of_map_eq_ok h
      have hround := (hparts element (.head _) element' helement).list (.list element)
      exact hround.congr (fun v => by rw [encodeWith]) fun d => by rw [decodeWith]
    | map value =>
      rw [build_map] at h
      obtain ⟨value', hvalue, rfl⟩ := exists_of_map_eq_ok h
      have hround := (hparts value (.head _) value' hvalue).map (.map value)
      exact hround.congr (fun v => by rw [encodeWith]) fun d => by rw [decodeWith]
    | grouping key value =>
      rw [build_grouping] at h
      obtain ⟨key', hkey, h⟩ := exists_of_bind_eq_ok h
      obtain ⟨value', hvalue, h⟩ := exists_of_bind_eq_ok h
      obtain rfl := Except.ok.inj h
      have hround := (hparts key (.head _) key' hkey).grouping
        (hparts value (.tail _ (.head _)) value' hvalue) (.grouping key value)
      exact hround.congr (fun v => by rw [encodeWith]) fun d => by rw [decodeWith]
    | tuple items =>
      rw [build_tuple top] at h
      obtain ⟨cs, hcs, rfl⟩ := exists_of_map_eq_ok h
      have hround := RoundTrips.tuple (partsRoundTrip_of_collect hcs hparts) (.tuple items)
      exact hround.congr (fun v => by rw [encodeWith, htuple]) fun d => by rw [decodeWith]
    | record r =>
      rw [build_record] at h
      obtain ⟨cs, hcs, rfl⟩ := exists_of_map_eq_ok h
      have hlength : (encodersWith writeStep cs).length = r.fields.length := by
        rw [length_encodersWith, length_of_collect hcs, List.length_map]
      have hround := RoundTrips.record (partsRoundTrip_of_collect hcs hparts) top.1 top.2
        ht.at_top hlength
      exact hround.congr (fun v => by rw [encodeWith]) fun d => by rw [decodeWith]
    | instant | zoned | span | dynamic => exact top.elim
    -- The times and the dynamic type are not kept, and all other types have leaf codecs.
    | _ =>
      obtain rfl := eq_leaf_of_build rfl h
      exact roundTrips_leaf settings rfl ht.at_top top

end Factory

/-! ## Engines -/

namespace Engine

variable {settings : Settings} {names : Naming} {cache later : ConverterCache}

/-- An engine that writes tuples reads back an equal value from what it wrote of a value of a type
    in `Ty.Kept`, whatever it was asked for before writing and before reading. -/
theorem decode_encode (htuple : settings.tupleEncoding = true) {t : Ty} (hkept : t.Kept)
    (ht : t.Named names) {v : Value} (hv : v.Named names) (hintact : v.Intact)
    (hcache : (ofSettings settings).Leads names .empty cache)
    (hlater : (ofSettings settings).Leads names .empty later) {d : Datum}
    (hencode : (((ofSettings settings).encode t v).run cache).1 = .ok d) :
    ∃ v', (((ofSettings settings).decode t d).run later).1 = .ok v' ∧ (v' == v) = true := by
  have hchain : ∀ factory ∈ (ofSettings settings).chain, factory.NeedsComponents :=
    Factory.defaults_needsComponents settings
  -- Whatever came before, the engine writes and reads as the bare chain does.
  obtain ⟨hagrees, -⟩ := hcache.agrees hchain ConverterCache.agrees_empty
  obtain ⟨hlateragrees, -⟩ := hlater.agrees hchain ConverterCache.agrees_empty
  obtain ⟨after, hrun, -⟩ :=
    encode_follows ConverterCache.knows_agrees hchain ht hv cache hagrees
  obtain ⟨last, hlast, -⟩ :=
    decode_follows ConverterCache.knows_agrees hchain ht d later hlateragrees
  rw [hrun] at hencode
  obtain ⟨c, hbuild, hwrite⟩ := exists_of_bind_eq_ok hencode
  obtain ⟨-, v', hread, hsame⟩ :=
    Factory.roundTrips_of_build htuple hkept ht hbuild v (hv.and hintact) d hwrite
  refine ⟨v', ?_, hsame⟩
  have hbuild : Factory.build (ofSettings settings).chain t = .ok c := hbuild
  rw [hlast, hbuild]
  exact hread

/-! ### A palette -/

/-- Colors by name. -/
def colorType : EnumType := ⟨"Color", [("red", 2), ("blue", -7)]⟩

/-- Colors that may be missing, and a count that is left out while it is zero. -/
def paletteType : RecordType := ⟨"Palette", .declared,
  [⟨"colors", "c", .list (.option (.enum colorType)), true, .null⟩,
    ⟨"count", "n", .int .u8, false, .int .u8 (IntKind.zero .u8)⟩]⟩

/-- The naming in which all enumerations are `colorType` and all records `paletteType`. -/
def paletteNaming : Naming := ⟨fun _ => colorType, fun _ _ => paletteType⟩

/-- A red color, a missing one and no count. -/
def palette : Value :=
  .record paletteType [.list [.enum colorType 2, .null], .int .u8 (IntKind.zero .u8)]

/-- Tuples are written, and enumerations by name. -/
def paletteSettings : Settings := ⟨.name, true, true, true⟩

/-- The types in `paletteType` are those of `paletteNaming`. -/
theorem named_paletteType : (Ty.record paletteType).Named paletteNaming := by
  refine .intro rfl ?_
  simp only [Ty.components, paletteType, List.map, List.forall_mem_cons]
  exact ⟨Ty.named_list.mpr (Ty.named_option.mpr (.of_leaf rfl rfl)), .of_leaf rfl trivial,
    List.forall_mem_nil _⟩

/-- The types that `palette` carries are those of `paletteNaming`. -/
theorem named_palette : palette.Named paletteNaming := by
  have hcolor : (Ty.enum colorType).Named paletteNaming := .of_leaf rfl rfl
  refine .intro named_paletteType ?_
  simp only [palette, Value.parts, List.forall_mem_cons]
  refine ⟨.intro trivial ?_, .of_leaf rfl trivial, List.forall_mem_nil _⟩
  simp only [Value.parts, List.forall_mem_cons]
  exact ⟨.of_leaf rfl hcolor, .of_leaf rfl trivial, List.forall_mem_nil _⟩

/-- The count is left out of the document of `palette`. -/
theorem encode_palette :
    (((ofSettings paletteSettings).encode (.record paletteType) palette).run .empty).1 =
      .ok (.object [("c", .array [.string "red", .null])]) := by
  -- The field is a list of options of colors, so its converter has three layers.
  have hbuild : Factory.build (ofSettings paletteSettings).chain (.record paletteType) =
      .ok (.record paletteType [.list (.list (.option (.enum colorType)))
        (.nullable (.option (.enum colorType)) (.leaf (.enum colorType .name))),
        .leaf (.int .u8)]) := by
    rw [ofSettings, Factory.build_record]
    simp only [paletteType, List.map, collect, Factory.build_list, Factory.build_option]
    rw [Factory.build_leaf rfl, Factory.build_leaf rfl]
    rfl
  have hsame : (Ty.record paletteType == Ty.record paletteType) = true := Ty.same_refl _
  -- The number is that of its default and may be left out, which `hzero` decides.
  have hzero : (Value.int .u8 (IntKind.zero .u8) == .int .u8 (IntKind.zero .u8)) = true := by
    show Value.same _ _ = true
    simp [Value.same]
  -- The request starts from the empty cache, where the engine writes as the bare chain does.
  have hchain : ∀ factory ∈ (ofSettings paletteSettings).chain, factory.NeedsComponents :=
    Factory.defaults_needsComponents paletteSettings
  obtain ⟨after, hrun, -⟩ :=
    encode_follows ConverterCache.knows_agrees hchain named_paletteType named_palette .empty
      ConverterCache.agrees_empty
  rw [hrun]
  show (Factory.build (ofSettings paletteSettings).chain (.record paletteType) >>= _) = _
  rw [hbuild]
  show Converter.encode _ _ palette = _
  -- The colors are written by their names, and the missing one as null.
  rw [Converter.encode, palette, Converter.encodeWith, Converter.encodeRecord, if_pos hsame]
  simp only [Converter.encodersWith, paletteType, Converter.encodeFields, Converter.emits, hzero,
    Converter.encodeWith, Converter.encodeList]
  rfl

/-- The document of `palette` is read back with its count by the engine that wrote it. -/
theorem decode_encode_palette :
    (paletteSettings.tupleEncoding = true ∧ (Ty.record paletteType).Kept ∧
      (Ty.record paletteType).Named paletteNaming ∧ palette.Named paletteNaming ∧ palette.Intact ∧
      (ofSettings paletteSettings).Leads paletteNaming .empty .empty ∧
      (ofSettings paletteSettings).Leads paletteNaming .empty
        ((ofSettings paletteSettings).serve .empty (.encode (.record paletteType) palette)) ∧
      (((ofSettings paletteSettings).encode (.record paletteType) palette).run .empty).1 =
        .ok (.object [("c", .array [.string "red", .null])])) ∧
    ∃ v', (((ofSettings paletteSettings).decode (.record paletteType)
        (.object [("c", .array [.string "red", .null])])).run
          ((ofSettings paletteSettings).serve .empty (.encode (.record paletteType) palette))).1 =
        .ok v' ∧ (v' == palette) = true := by
  have hcolor : colorType.Kept := ⟨by decide, by decide⟩
  -- The conditions on the type go down to the colors, the only leaf that asks for something.
  have hkept : (Ty.record paletteType).Kept := by
    refine .intro ⟨by decide, by decide⟩ ?_
    simp only [Ty.components, paletteType, List.map, List.forall_mem_cons]
    refine ⟨.intro trivial ?_, .of_leaf rfl trivial, List.forall_mem_nil _⟩
    simp only [Ty.components, List.forall_mem_cons]
    refine ⟨.intro trivial ?_, List.forall_mem_nil _⟩
    simp only [Ty.components, List.forall_mem_cons]
    exact ⟨.of_leaf rfl hcolor, List.forall_mem_nil _⟩
  have hintact : palette.Intact := by
    refine .intro rfl ?_
    simp only [palette, Value.parts, List.forall_mem_cons]
    refine ⟨.intro trivial ?_, .of_leaf rfl trivial, List.forall_mem_nil _⟩
    simp only [Value.parts, List.forall_mem_cons]
    exact ⟨.of_leaf rfl (.head _), .of_leaf rfl trivial, List.forall_mem_nil _⟩
  -- Writing has changed the cache by the time the document is read.
  have hlater : (ofSettings paletteSettings).Leads paletteNaming .empty
      ((ofSettings paletteSettings).serve .empty (.encode (.record paletteType) palette)) :=
    .single ⟨.encode _ _, ⟨named_paletteType, named_palette⟩, rfl⟩
  exact ⟨⟨rfl, hkept, named_paletteType, named_palette, hintact, .refl, hlater, encode_palette⟩,
    decode_encode rfl hkept named_paletteType named_palette hintact .refl hlater encode_palette⟩

end Engine

end DocQuery
