import DocQuery.Proofs.Schema.Naming
import DocQuery.Proofs.Text.Items

/-!
# Texts of types

The text of a type is a word, or a word with a group of items in brackets. Declared types go by
their names, and an anonymous record is named after its members. Types that are the same have one
text. The other way round the text tells the type as long as the names in it are readable: no
delimiter stands in them, no declared type is named as a leaf, enumerations and declared records do
not share names, and no name of a member has a colon.

## Key results

- `Ty.text_eq_of_same`: types that are the same have one text
- `Ty.word_group_eq_of_text_eq`: the text of a readable type tells its word and its items
- `Ty.same_of_text_eq`: readable types with one text are the same
-/

namespace DocQuery

open Text (Bracket Entry IsItem delimiters)

namespace Ty

/-! ## Texts -/

@[simp] theorem text_enum (e : EnumType) : (enum e).text = e.name := rfl

/-- The text of a record is its name, which for an anonymous one tells its members. -/
@[simp] theorem text_record (r : RecordType) : (record r).text = r.name := rfl

@[simp] theorem text_option (t : Ty) : (option t).text = "Option<" ++ t.text ++ ">" := rfl

@[simp] theorem text_list (t : Ty) : (list t).text = "Vec<" ++ t.text ++ ">" := rfl

@[simp] theorem text_map (t : Ty) : (map t).text = "BTreeMap<String, " ++ t.text ++ ">" := rfl

@[simp] theorem text_grouping (k v : Ty) :
    (grouping k v).text = "Grouping<" ++ k.text ++ ", " ++ v.text ++ ">" := rfl

/-- `texts` is `text` of each type. -/
theorem texts_eq_map (ts : List Ty) : texts ts = ts.map text := by
  induction ts with
  | nil => rfl
  | cons t rest ih => exact congrArg (t.text :: ·) ih

@[simp] theorem text_tuple (ts : List Ty) :
    (tuple ts).text = "(" ++ ", ".intercalate (ts.map text) ++ ")" := by
  rw [← texts_eq_map]
  rfl

/-- Types that are the `same` have one text, as declared types go by their names in both. -/
theorem text_eq_of_same {a b : Ty} (h : a.same b = true) : a.text = b.text := by
  revert h
  apply same.induct (fun a b => same a b = true → a.text = b.text)
    fun as bs => sameItems as bs = true → as.map text = bs.map text
  all_goals simp_all [same, sameItems]

/-! ## Words and groups -/

/-- The word that the text of a type starts with, up to the first bracket. -/
def word : Ty → String
  | instant | zoned => "DateTime"
  | option _ => "Option"
  | list _ => "Vec"
  | map _ => "BTreeMap"
  | grouping _ _ => "Grouping"
  | tuple _ => ""
  | record r => if r.kind = .anonymous then "" else r.name
  | t => t.text

/-- The text of a member of an anonymous record: `name: type`. -/
def memberText (name : String) (t : Ty) : String := name ++ ": " ++ t.text

/-- The items that follow the word, in their brackets. -/
def group : Ty → Option (Bracket × List String)
  | instant => some (.angle, ["Utc"])
  | zoned => some (.angle, ["FixedOffset"])
  | option inner | list inner => some (.angle, [inner.text])
  | map value => some (.angle, ["String", value.text])
  | grouping key value => some (.angle, [key.text, value.text])
  | tuple items => some (.round, items.map text)
  | record r =>
    if r.kind = .anonymous then some (.curly, r.fields.map fun f => memberText f.name f.type)
    else none
  | _ => none

/-- The text of a group: its items `joined` between its brackets. -/
def groupText : Option (Bracket × List String) → List Char
  | none => []
  | some (bracket, items) => bracket.opening :: (Text.joined items ++ [bracket.closing])

/-! ## Readable types -/

/-- The types whose text is a word of their own: neither declared nor with a `group`. -/
def leaves : List Ty :=
  [bool, char, string, f32, f64, uuid, url, binary, span, dynamic] ++ IntKind.all.map int

/-- The name of a declared type that no other text can be taken for: no delimiter is in it, and no
    leaf has it as its text. -/
structure ReadableName (name : String) : Prop where
  ne_empty : name ≠ ""
  plain : ∀ c ∈ name.toList, c ∉ delimiters
  ne_leaf : ∀ t ∈ leaves, name ≠ t.text

/-- The name of a member, which ends before a colon and has none of the `delimiters`. -/
def ReadableMember (name : String) : Prop :=
  ∀ c ∈ name.toList, c ∉ delimiters ∧ c ≠ ':'

/-- Declared types have readable names, which `enums` tells apart, and an anonymous record is named
    after its members. -/
def ReadableNode (enums : String → Bool) : Ty → Prop
  | enum type => ReadableName type.name ∧ enums type.name = true
  | record ⟨name, .declared, _⟩ => ReadableName name ∧ enums name = false
  | record ⟨name, .anonymous, fields⟩ =>
    name = (RecordType.anonymous (fields.map fun f => (f.name, f.type))).name ∧
      ∀ f ∈ fields, ReadableMember f.name
  | _ => True

/-- The types whose texts stand in the text of a type: its `components`, but for a declared record,
    which goes by its name. -/
def spelledParts : Ty → List Ty
  | record ⟨_, .declared, _⟩ => []
  | t => t.components

/-- Every name in the text of the type is readable: `ReadableNode` of all `spelledParts`. -/
abbrev Readable (enums : String → Bool) : Ty → Prop := Everywhere spelledParts (ReadableNode enums)

variable {enums : String → Bool} {a b t : Ty}

/-- The text of a type is its `word` and its `groupText`. -/
theorem toList_text (h : t.ReadableNode enums) :
    t.text.toList = t.word.toList ++ groupText t.group := by
  cases t with
  | record type =>
    obtain ⟨name, kind, fields⟩ := type
    cases kind with
    | declared => simp [word, group, groupText]
    | anonymous =>
      -- The name of the record is made of its members, and the group spells it out.
      obtain ⟨hname, -⟩ := h
      rw [text_record, hname]
      simp [word, group, groupText, memberText, Text.joined, RecordType.anonymous, Bracket.opening,
        Bracket.closing, Function.comp_def]
  | option | list | map | grouping | tuple =>
    simp [word, group, groupText, Text.joined, Bracket.opening, Bracket.closing]
  | instant | zoned => rfl
  | _ => exact (List.append_nil _).symm

/-! ## Types that are one word -/

/-- The texts of all `leaves`. -/
theorem map_text_leaves : leaves.map text =
    ["bool", "char", "String", "f32", "f64", "Uuid", "Url", "Binary", "TimeDelta", "Value", "i8",
      "i16", "i32", "i64", "u8", "u16", "u32", "u64"] := rfl

/-- No leaf has a delimiter in its text. -/
theorem plain_leaf : ∀ t ∈ leaves, ∀ c ∈ t.text.toList, c ∉ delimiters := by
  have hplain : ∀ s ∈ leaves.map text, ∀ c ∈ s.toList, c ∉ delimiters := by
    rw [map_text_leaves]
    simp
  exact fun t ht => hplain t.text (List.mem_map_of_mem ht)

/-- Two `leaves` with one text are the same type: there are eighteen. -/
theorem same_of_text_eq_of_leaf :
    ∀ a ∈ leaves, ∀ b ∈ leaves, a.text = b.text → a.same b = true := by decide +kernel

/-- A type without a `group` is a leaf or is called by its name. -/
theorem exists_of_group_eq_none (h : t.group = none) :
    (t ∈ leaves ∧ t.word = t.text) ∨ (∃ type, t = enum type) ∨
      ∃ name fields, t = record ⟨name, .declared, fields⟩ := by
  cases t with
  | enum type => exact .inr (.inl ⟨type, rfl⟩)
  | record type =>
    obtain ⟨name, kind, fields⟩ := type
    cases kind with
    | declared => exact .inr (.inr ⟨name, fields, rfl⟩)
    | anonymous => cases h
  | int kind => exact .inl ⟨by cases kind <;> simp [leaves, IntKind.all], rfl⟩
  -- Each of these has a group.
  | option | list | map | grouping | tuple | instant | zoned => cases h
  | _ => exact .inl ⟨by simp [leaves], rfl⟩

/-- No delimiter stands in the `word` of a type. -/
theorem plain_word (h : t.ReadableNode enums) : ∀ c ∈ t.word.toList, c ∉ delimiters := by
  cases hgroup : t.group with
  | none =>
    rcases exists_of_group_eq_none hgroup with ⟨hleaf, hword⟩ | ⟨type, rfl⟩ | ⟨name, fields, rfl⟩
    · rw [hword]
      exact plain_leaf t hleaf
    · exact h.1.plain
    · exact h.1.plain
  -- The words in front of groups are those of containers and times, or empty.
  | some =>
    cases t with
    | record type =>
      obtain ⟨name, kind, fields⟩ := type
      cases kind with
      | declared => cases hgroup
      | anonymous => simp [word]
    | option | list | map | grouping | tuple | instant | zoned =>
      simp [word]
    | _ => cases hgroup

/-- Among the types that are one word, readable names tell enumerations, records and leaves
    apart. -/
theorem same_of_word_eq (ha : a.ReadableNode enums) (hb : b.ReadableNode enums)
    (hgroup : a.group = none) (hgroup' : b.group = none) (h : a.word = b.word) :
    a.same b = true := by
  rcases exists_of_group_eq_none hgroup with ⟨hleaf, hword⟩ | ⟨e, rfl⟩ | ⟨r, fields, rfl⟩
  · rcases exists_of_group_eq_none hgroup' with ⟨hleaf', hword'⟩ | ⟨f, rfl⟩ | ⟨s, fields', rfl⟩
    · exact same_of_text_eq_of_leaf a hleaf b hleaf' (by rw [← hword, h, hword'])
    · -- A readable name is not that of a leaf.
      exact absurd (hword.symm.trans h).symm (hb.1.ne_leaf a hleaf)
    · exact absurd (hword.symm.trans h).symm (hb.1.ne_leaf a hleaf)
  · rcases exists_of_group_eq_none hgroup' with ⟨hleaf', hword'⟩ | ⟨f, rfl⟩ | ⟨s, fields', rfl⟩
    · exact absurd (h.trans hword') (ha.1.ne_leaf b hleaf')
    · have hname : e.name = f.name := h
      simp [same, hname]
    · have hname : e.name = s := h
      -- A name is that of an enumeration or of a record, as `enums` says.
      exact absurd (ha.2.symm.trans (hname ▸ hb.2)) (by decide)
  · rcases exists_of_group_eq_none hgroup' with ⟨hleaf', hword'⟩ | ⟨f, rfl⟩ | ⟨s, fields', rfl⟩
    · exact absurd (h.trans hword') (ha.1.ne_leaf b hleaf')
    · have hname : r = f.name := h
      exact absurd (hb.2.symm.trans (hname ▸ ha.2)) (by decide)
    · have hname : r = s := h
      simp [same, hname]

/-! ## Entries of a group -/

/-- A member is an `Entry` where its type is. -/
theorem entry_member {name : String} (hname : ReadableMember name) (ht : Entry t.text) :
    Entry (memberText name t) := by
  -- The name with its colon holds neither brackets nor commas.
  have hstart : IsItem (name ++ ": ").toList := by
    refine Text.isItem_of_not_mem fun c hc => ?_
    have hc : c ∈ name.toList ∨ c = ':' ∨ c = ' ' := by simpa using hc
    rcases hc with hc | rfl | rfl
    · exact (hname c hc).1
    · simp
    · simp
  refine ⟨?_, by simp [memberText]⟩
  rw [memberText, String.toList_append]
  exact hstart.append ht.isItem

/-- Names end before the first colon, so members with one `memberText` have one name and types with
    one text. -/
theorem member_inj {name name' : String} (hname : ReadableMember name)
    (hname' : ReadableMember name') (h : memberText name a = memberText name' b) :
    name = name' ∧ a.text = b.text := by
  have hchars :
      name.toList ++ (": " ++ a.text).toList = name'.toList ++ (": " ++ b.text).toList := by
    rw [← String.toList_append, ← String.toList_append, ← String.append_assoc,
      ← String.append_assoc]
    exact congrArg String.toList h
  -- Behind the name the colon comes first.
  have hcolon (t : Ty) : (": " ++ t.text).toList.takeWhile (· != ':') = [] := by simp
  obtain ⟨hnames, htexts⟩ := Text.append_inj_of_word (p := (· != ':'))
    (fun c hc => by simp [(hname c hc).2]) (fun c hc => by simp [(hname' c hc).2]) (hcolon a)
    (hcolon b) hchars
  exact ⟨String.toList_inj.mp hnames, String.toList_inj.mp (by simpa using htexts)⟩

/-- The items of the `group` of a type are entries where its parts are. -/
theorem entry_of_mem_group (h : t.ReadableNode enums)
    (hparts : ∀ part ∈ t.spelledParts, Entry part.text) {bracket : Bracket} {items : List String}
    (hgroup : t.group = some (bracket, items)) : ∀ s ∈ items, Entry s := by
  -- The three words that texts of types hold besides those of their parts.
  have hword (s : String) (hs : s = "Utc" ∨ s = "FixedOffset" ∨ s = "String") : Entry s := by
    rcases hs with rfl | rfl | rfl <;> exact .of_not_mem (by simp) (by simp)
  -- `group` tells the items of each kind of type: words, texts of parts, or members.
  cases t with
  | instant =>
    obtain ⟨-, rfl⟩ : Bracket.angle = bracket ∧ ["Utc"] = items := by simpa [group] using hgroup
    exact List.forall_mem_singleton.mpr (hword _ (.inl rfl))
  | zoned =>
    obtain ⟨-, rfl⟩ : Bracket.angle = bracket ∧ ["FixedOffset"] = items := by
      simpa [group] using hgroup
    exact List.forall_mem_singleton.mpr (hword _ (.inr (.inl rfl)))
  | option inner | list inner =>
    obtain ⟨-, rfl⟩ : Bracket.angle = bracket ∧ [inner.text] = items := by
      simpa [group] using hgroup
    exact List.forall_mem_singleton.mpr (hparts inner (.head _))
  | map value =>
    obtain ⟨-, rfl⟩ : Bracket.angle = bracket ∧ ["String", value.text] = items := by
      simpa [group] using hgroup
    simp only [List.forall_mem_cons]
    exact ⟨hword _ (.inr (.inr rfl)), hparts value (.head _), List.forall_mem_nil _⟩
  | grouping key value =>
    obtain ⟨-, rfl⟩ : Bracket.angle = bracket ∧ [key.text, value.text] = items := by
      simpa [group] using hgroup
    simp only [List.forall_mem_cons]
    exact ⟨hparts key (.head _), hparts value (.tail _ (.head _)), List.forall_mem_nil _⟩
  -- All items are texts of parts.
  | tuple types =>
    obtain ⟨-, rfl⟩ : Bracket.round = bracket ∧ types.map text = items := by
      simpa [group] using hgroup
    exact List.forall_mem_map.mpr hparts
  | record type =>
    obtain ⟨name, kind, fields⟩ := type
    cases kind with
    | declared => cases hgroup
    | anonymous =>
      obtain ⟨-, rfl⟩ : Bracket.curly = bracket ∧
          fields.map (fun f => memberText f.name f.type) = items := by
        simpa [group] using hgroup
      -- The name of each member is readable, so its text is an entry with that of its type.
      refine List.forall_mem_map.mpr fun f hf => ?_
      exact entry_member (h.2 f hf) (hparts f.type (List.mem_map_of_mem hf))
  | _ => cases hgroup

/-- The text of a `Readable` type is an `Entry`, which brackets and commas around it do not
    split. -/
theorem Readable.entry_text (h : t.Readable enums) : Entry t.text := by
  induction h with
  | @intro t top _ ih =>
    have hword : IsItem t.word.toList := Text.isItem_of_not_mem (plain_word top)
    have htext := toList_text top
    cases hgroup : t.group with
    | none =>
      rw [hgroup, groupText, List.append_nil] at htext
      refine ⟨htext ▸ hword, ?_⟩
      -- Neither a leaf nor a declared type has an empty text.
      rcases exists_of_group_eq_none hgroup with ⟨hleaf, -⟩ | ⟨type, rfl⟩ | ⟨name, fields, rfl⟩
      · have hne : ∀ s ∈ leaves.map text, s ≠ "" := by
          rw [map_text_leaves]
          decide
        exact hne t.text (List.mem_map_of_mem hleaf)
      · exact top.1.ne_empty
      · exact top.1.ne_empty
    | some g =>
      -- The brackets close around the entries, and they are there also where the word is empty.
      obtain ⟨bracket, items⟩ := g
      have hinner := Text.isInner_joined (entry_of_mem_group top ih hgroup)
      rw [hgroup, groupText] at htext
      refine ⟨htext ▸ hword.append (hinner.bracketed bracket), fun hempty => ?_⟩
      rw [hempty] at htext
      simp at htext

/-! ## Texts are read one way -/

/-- A word ends where a group starts, as `groupText` starts with a bracket. -/
theorem takeWhile_groupText (g : Option (Bracket × List String)) :
    (groupText g).takeWhile (fun c => decide (c ∉ delimiters)) = [] := by
  rcases g with - | ⟨bracket, items⟩
  · rfl
  · cases bracket <;> simp [groupText, Bracket.opening]

/-- Groups of entries have one `groupText` only where they are equal. -/
theorem groupText_inj {g g' : Option (Bracket × List String)}
    (hg : ∀ bracket items, g = some (bracket, items) → ∀ s ∈ items, Entry s)
    (hg' : ∀ bracket items, g' = some (bracket, items) → ∀ s ∈ items, Entry s)
    (h : groupText g = groupText g') : g = g' := by
  rcases g with - | ⟨bracket, items⟩
  · rcases g' with - | ⟨bracket', items'⟩
    · rfl
    · -- A group has at least its brackets, so its text is not empty.
      simp [groupText] at h
  · rcases g' with - | ⟨bracket', items'⟩
    · simp [groupText] at h
    · obtain ⟨hopening, hrest⟩ := List.cons_eq_cons.mp h
      obtain rfl := Bracket.opening_injective hopening
      rw [Text.joined_inj (hg _ _ rfl) (hg' _ _ rfl) (List.append_cancel_right hrest)]

/-- The text of a `Readable` type tells its `word` and its `group`. -/
theorem word_group_eq_of_text_eq (ha : a.Readable enums) (hb : b.Readable enums)
    (h : a.text = b.text) : a.word = b.word ∧ a.group = b.group := by
  have hentries {t : Ty} (ht : t.Readable enums) (bracket : Bracket) (items : List String)
      (hgroup : t.group = some (bracket, items)) : ∀ s ∈ items, Entry s :=
    entry_of_mem_group ht.at_top (fun _ hpart => Readable.entry_text (ht.at_part hpart)) hgroup
  -- Both texts are a word and a group, and words hold no bracket.
  have hchars : a.word.toList ++ groupText a.group = b.word.toList ++ groupText b.group := by
    rw [← toList_text ha.at_top, ← toList_text hb.at_top, h]
  obtain ⟨hword, hgroup⟩ := Text.append_inj_of_word
    (fun c hc => by simpa using plain_word ha.at_top c hc)
    (fun c hc => by simpa using plain_word hb.at_top c hc) (takeWhile_groupText _)
    (takeWhile_groupText _) hchars
  exact ⟨String.toList_inj.mp hword, groupText_inj (hentries ha) (hentries hb) hgroup⟩

/-- Lists of types with the same texts are the same, where types with one text are. -/
theorem sameItems_of_map_text_eq {as bs : List Ty}
    (h : ∀ a ∈ as, ∀ b ∈ bs, a.text = b.text → a.same b = true)
    (htexts : as.map text = bs.map text) : sameItems as bs = true := by
  -- Induction on the first list; the lists are of one length, since their texts are.
  induction as generalizing bs with
  | nil =>
    cases bs with
    | nil => rfl
    | cons => cases htexts
  | cons a as ih =>
    cases bs with
    | nil => cases htexts
    | cons b bs =>
      obtain ⟨hfirst, hrest⟩ := List.cons_eq_cons.mp htexts
      rw [sameItems, h a (.head _) b (.head _) hfirst, Bool.true_and]
      exact ih (fun a ha b hb => h a (.tail _ ha) b (.tail _ hb)) hrest

/-- `Readable` types with one text are the `same`. -/
theorem same_of_text_eq (ha : a.Readable enums) (hb : b.Readable enums) (h : a.text = b.text) :
    a.same b = true := by
  -- On the first type: the words and the groups are equal, which leaves one kind of type for the
  -- second one and gives its parts the texts of those of the first one.
  induction ha generalizing b with
  | @intro a top rest ih =>
    obtain ⟨hword, hgroup⟩ := word_group_eq_of_text_eq (.intro top rest) hb h
    cases hnone : a.group with
    | none => exact same_of_word_eq top hb.at_top hnone (hgroup ▸ hnone) hword
    | some g =>
      cases a with
      | instant | zoned =>
        -- The words of the two are one, and the items tell them apart.
        cases b <;> simp [word, group] at hword hgroup
        rfl
      | option x =>
        obtain ⟨y, rfl, hinner⟩ : ∃ y, b = option y ∧ x.text = y.text := by
          cases b <;> simp [word, group] at hword hgroup ⊢
          exact hgroup
        exact ih x (.head _) (hb.at_part (.head _)) hinner
      | list x =>
        obtain ⟨y, rfl, hinner⟩ : ∃ y, b = list y ∧ x.text = y.text := by
          cases b <;> simp [word, group] at hword hgroup ⊢
          exact hgroup
        exact ih x (.head _) (hb.at_part (.head _)) hinner
      | map x =>
        obtain ⟨y, rfl, hinner⟩ : ∃ y, b = map y ∧ x.text = y.text := by
          cases b <;> simp [word, group] at hword hgroup ⊢
          exact hgroup
        exact ih x (.head _) (hb.at_part (.head _)) hinner
      | grouping k v =>
        obtain ⟨l, w, rfl, hkey, hvalue⟩ :
            ∃ l w, b = grouping l w ∧ k.text = l.text ∧ v.text = w.text := by
          cases b <;> simp [word, group] at hword hgroup ⊢
          exact hgroup
        simp only [same, Bool.and_eq_true]
        exact ⟨ih k (.head _) (hb.at_part (.head _)) hkey,
          ih v (.tail _ (.head _)) (hb.at_part (.tail _ (.head _))) hvalue⟩
      | tuple as =>
        obtain ⟨bs, rfl, htexts⟩ : ∃ bs, b = tuple bs ∧ as.map text = bs.map text := by
          cases b <;> simp [word, group] at hword hgroup ⊢
          exact hgroup
        exact sameItems_of_map_text_eq (fun a ha b hb' => ih a ha (hb.at_part hb')) htexts
      | record r =>
        -- A declared record has no group.
        have hkind : r.kind = .anonymous := by
          by_contra hdeclared
          simp [group, hdeclared] at hnone
        obtain ⟨s, rfl, hkind'⟩ : ∃ s, b = record s ∧ s.kind = .anonymous := by
          cases b <;> simp [group, hkind] at hgroup ⊢
          exact hgroup.1
        -- Anonymous records are compared by their names, which are their texts.
        have hname : r.name = s.name := h
        simp [same, hname, hkind, hkind']
      | _ => cases hnone

end Ty

end DocQuery
