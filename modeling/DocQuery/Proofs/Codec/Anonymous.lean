import DocQuery.Proofs.Codec.Cache
import DocQuery.Proofs.Schema.Text

/-!
# Anonymous records and their members

An anonymous record is the type that its name says, and the name is put together from its members.
The same members make the same type, which the cache of converters then serves by one converter.
Where all names are readable, other members make another type, and a converter for the one is never
found for the other. A name in which a delimiter stands can be taken for something else.

## Key results

- `RecordType.anonymous_same`: when anonymous records are the same, and what a cache finds for them
-/

namespace DocQuery

namespace RecordType

variable {enums : String → Bool} {xs ys : List (String × Ty)}

/-- Members with the same names and the same types, in their order. -/
abbrev SameMembers (xs ys : List (String × Ty)) : Prop :=
  List.Forall₂ (fun x y => x.1 = y.1 ∧ (x.2 == y.2) = true) xs ys

/-- The names of the members and all names in the texts of their types are readable. -/
abbrev ReadableMembers (enums : String → Bool) (members : List (String × Ty)) : Prop :=
  ∀ m ∈ members, Ty.ReadableMember m.1 ∧ m.2.Readable enums

/-- An `anonymous` record of `ReadableMembers` is a readable type. -/
theorem ReadableMembers.anonymous (h : ReadableMembers enums xs) :
    (Ty.record (anonymous xs)).Readable enums := by
  refine .intro ⟨?_, ?_⟩ ?_
  · simp [RecordType.anonymous, Field.plain, Function.comp_def]
  · exact List.forall_mem_map.mpr fun m hm => (h m hm).1
  · -- The types below a record are those of its members.
    have hparts : (Ty.record (RecordType.anonymous xs)).spelledParts = xs.map Prod.snd := by
      simp [Ty.spelledParts, Ty.components, RecordType.anonymous, Field.plain, Function.comp_def]
    rw [hparts]
    exact List.forall_mem_map.mpr fun m hm => (h m hm).2

/-- The texts of members, which the name of the record joins. -/
def memberTexts (members : List (String × Ty)) : List String :=
  members.map fun m => Ty.memberText m.1 m.2

/-- The name of an `anonymous` record is the list of its `memberTexts` in braces. -/
theorem anonymous_name (members : List (String × Ty)) : (anonymous members).name =
    "\x7b" ++ ", ".intercalate (memberTexts members) ++ "\x7d" := rfl

/-- `SameMembers` make the same name: their names are equal, and equal types have one text. -/
theorem SameMembers.name_eq (h : SameMembers xs ys) :
    (anonymous xs).name = (anonymous ys).name := by
  -- A member's text is made of its name and the text of its type, and both agree.
  have htexts : memberTexts xs = memberTexts ys := by
    induction h with
    | nil => rfl
    | @cons x y xs ys hmember _ ih =>
      obtain ⟨hname, htype⟩ := hmember
      have hmember : Ty.memberText x.1 x.2 = Ty.memberText y.1 y.2 := by
        rw [Ty.memberText, hname, Ty.text_eq_of_same htype, Ty.memberText]
      exact List.cons_eq_cons.mpr ⟨hmember, ih⟩
  rw [anonymous_name, anonymous_name, htexts]

/-- `ReadableMembers` can be told from the name that they make. -/
theorem sameMembers_of_name_eq (hxs : ReadableMembers enums xs) (hys : ReadableMembers enums ys)
    (h : (anonymous xs).name = (anonymous ys).name) : SameMembers xs ys := by
  -- In the name of a readable record the braces and commas at the top are those of the record
  -- itself, so its members can be taken apart.
  obtain ⟨-, hgroup⟩ := Ty.word_group_eq_of_text_eq hxs.anonymous hys.anonymous h
  have htexts : memberTexts xs = memberTexts ys := by
    simpa [Ty.group, memberTexts, anonymous, Field.plain, Function.comp_def] using hgroup
  clear h hgroup
  induction xs generalizing ys with
  | nil =>
    cases ys with
    | nil => exact .nil
    | cons => cases htexts
  | cons x xs ih =>
    cases ys with
    | nil => cases htexts
    | cons y ys =>
      obtain ⟨hmember, hrest⟩ := List.cons_eq_cons.mp htexts
      rw [ReadableMembers, List.forall_mem_cons] at hxs hys
      -- The first colon of a member ends its name, as the name has none.
      obtain ⟨hname, htext⟩ := Ty.member_inj hxs.1.1 hys.1.1 hmember
      exact .cons ⟨hname, Ty.same_of_text_eq hxs.1.2 hys.1.2 htext⟩ (ih hxs.2 hys.2 hrest)

/-- `anonymous` records are the same just where their names are, which are the texts of their
    members. `SameMembers` make the same `anonymous` record, and whatever a cache holds, `find?`
    gives the same converter for both. `ReadableMembers` that are not the same make different
    `anonymous` records, and a converter that `add` stores for one of them is not found for the
    other. -/
theorem anonymous_same (xs ys : List (String × Ty)) :
    ((Ty.record (anonymous xs) == .record (anonymous ys)) = true ↔
      (anonymous xs).name = (anonymous ys).name) ∧
    (SameMembers xs ys →
      (Ty.record (anonymous xs) == .record (anonymous ys)) = true ∧
      ∀ cache : ConverterCache,
        cache.find? (.record (anonymous xs)) = cache.find? (.record (anonymous ys))) ∧
    ∀ enums, ReadableMembers enums xs → ReadableMembers enums ys →
      ((Ty.record (anonymous xs) == .record (anonymous ys)) = true ↔ SameMembers xs ys) ∧
      (¬SameMembers xs ys → ∀ (cache : ConverterCache) (converter : Converter),
        (cache.add (.record (anonymous xs)) converter).find? (.record (anonymous ys)) =
          cache.find? (.record (anonymous ys))) := by
  have hnames : (Ty.record (anonymous xs) == .record (anonymous ys)) = true ↔
      (anonymous xs).name = (anonymous ys).name := by
    -- Records are compared by their names and by their kinds, which are both anonymous here.
    show ((anonymous xs).name == (anonymous ys).name && true) = true ↔ _
    rw [Bool.and_true, beq_iff_eq]
  refine ⟨hnames, fun h => ⟨hnames.mpr h.name_eq, fun cache => ?_⟩, fun enums hxs hys => ?_⟩
  · -- A type is compared with either of them by its name and its kind.
    refine ConverterCache.find?_congr fun u => ?_
    cases u with
    | record r =>
      show (r.name == (anonymous xs).name && _) = (r.name == (anonymous ys).name && _)
      rw [h.name_eq]
      rfl
    | _ => rfl
  · have hiff : (Ty.record (anonymous xs) == .record (anonymous ys)) = true ↔
        SameMembers xs ys :=
      ⟨fun h => sameMembers_of_name_eq hxs hys (hnames.mp h), fun h => hnames.mpr h.name_eq⟩
    refine ⟨hiff, fun hother cache converter => ?_⟩
    apply ConverterCache.find?_add_of_ne
    rw [Bool.eq_false_iff]
    exact fun h => hother (hiff.mp h)

def shade : EnumType := ⟨"Shade", [("light", 0), ("dark", 1)]⟩

/-- A shade and a time that may be missing. -/
def optionalTime : List (String × Ty) := [("shade", .enum shade), ("at", .option .instant)]

def requiredTime : List (String × Ty) := [("shade", .enum shade), ("at", .instant)]

def optionalTimeConverter : Converter :=
  .record (anonymous optionalTime)
    [.leaf (.enum shade .numeric), .nullable (.option .instant) (.leaf (.instant false))]

/-- With `shade` for an enumeration, the members of `optionalTime` and `requiredTime` are
    readable. -/
theorem readableMembers_shade {t : Ty} (ht : t.Readable (· == "Shade")) :
    ReadableMembers (· == "Shade") [("shade", .enum shade), ("at", t)] := by
  have hplain : ∀ c ∈ "Shade".toList, c ∉ Text.delimiters := by simp
  -- No type without parts has the name of the enumeration for its text.
  have hleaf : ∀ t ∈ Ty.leaves, "Shade" ≠ t.text := by
    intro t ht hname
    have hmem : "Shade" ∈ Ty.leaves.map Ty.text := hname ▸ List.mem_map_of_mem ht
    rw [Ty.map_text_leaves] at hmem
    exact absurd hmem (by decide)
  have hshade : (Ty.enum shade).Readable (· == "Shade") :=
    .of_leaf rfl ⟨⟨by decide, hplain, hleaf⟩, rfl⟩
  simp only [ReadableMembers, List.forall_mem_cons]
  have hnames : Ty.ReadableMember "shade" ∧ Ty.ReadableMember "at" := by
    simp [Ty.ReadableMember]
  exact ⟨⟨hnames.1, hshade⟩, ⟨hnames.2, ht⟩, List.forall_mem_nil _⟩

/-- With the time missing or not they are different types, and `find?` does not give the converter
    of the one for the other. -/
theorem anonymous_same_time :
    ReadableMembers (· == "Shade") optionalTime ∧ ReadableMembers (· == "Shade") requiredTime ∧
      ¬SameMembers optionalTime requiredTime ∧
      (Ty.record (anonymous optionalTime) == .record (anonymous requiredTime)) = false ∧
      (ConverterCache.empty.add (.record (anonymous optionalTime)) optionalTimeConverter).find?
        (.record (anonymous requiredTime)) = none := by
  have hinstant : Ty.instant.Readable (· == "Shade") := .of_leaf rfl trivial
  have hoption : (Ty.option .instant).Readable (· == "Shade") :=
    .intro trivial (List.forall_mem_singleton.mpr hinstant)
  have hoptional := readableMembers_shade hoption
  have hrequired := readableMembers_shade hinstant
  -- The second members have one name, and the type of one of them is no option.
  have hother : ¬SameMembers optionalTime requiredTime := by
    rw [SameMembers, optionalTime, requiredTime, List.forall₂_cons, List.forall₂_cons]
    rintro ⟨-, ⟨-, htype⟩, -⟩
    cases htype
  obtain ⟨hiff, hcache⟩ := (anonymous_same optionalTime requiredTime).2.2 _ hoptional hrequired
  exact ⟨hoptional, hrequired, hother, Bool.eq_false_iff.mpr fun h => hother (hiff.mp h),
    hcache hother .empty optionalTimeConverter⟩

def pair : List (String × Ty) := [("a", .int .i32), ("b", .int .i32)]

def pairConverter : Converter :=
  .record (anonymous pair) [.leaf (.int .i32), .leaf (.int .i32)]

/-- One member, whose name spells the first member of the pair, its type and the name of the
    second. -/
def joined : List (String × Ty) := [("a: i32, b", .int .i32)]

/-- `pair` and `joined` are the same type, and `find?` gives the converter of the pair for the
    other. So are the records of one member whose types are an enumeration and a declared record of
    one name. -/
theorem not_anonymous_same_only_members :
    ¬SameMembers pair joined ∧
      (Ty.record (anonymous pair) == .record (anonymous joined)) = true ∧
      (ConverterCache.empty.add (.record (anonymous pair)) pairConverter).find?
        (.record (anonymous joined)) = some pairConverter ∧
      ¬SameMembers [("shade", .enum shade)] [("shade", .record ⟨"Shade", .declared, []⟩)] ∧
      (Ty.record (anonymous [("shade", .enum shade)]) ==
        .record (anonymous [("shade", .record ⟨"Shade", .declared, []⟩)])) = true := by
  refine ⟨?_, rfl, rfl, ?_, rfl⟩
  · -- The lists differ in length.
    rw [SameMembers, pair, joined, List.forall₂_cons]
    rintro ⟨-, hrest⟩
    cases hrest
  · -- An enumeration and a record of one name have one text.
    rw [SameMembers, List.forall₂_cons]
    rintro ⟨⟨-, htype⟩, -⟩
    cases htype

end RecordType

end DocQuery
