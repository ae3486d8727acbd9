import Mathlib.Data.List.Basic

/-!
# Items in brackets

A text is put together from words and from items that stand in brackets, with commas between them.
An item is a stretch of text in which brackets are closed as they were opened and every comma stands
in brackets. So the end of an item is found without knowing what follows, and of two texts that are
equal the words and the items are.

## Key results

- `Text.append_inj_of_word`: equal texts start with equal words
- `Text.IsItem.append_inj`: equal texts start with equal items
- `Text.joined_inj`: lists of items are equal where their texts are
-/

namespace DocQuery.Text

/-- The brackets that items stand in. -/
inductive Bracket where
  | angle
  | round
  | curly
deriving DecidableEq

namespace Bracket

/-- The character that a bracket is opened with. -/
def opening : Bracket → Char
  | angle => '<'
  | round => '('
  | curly => '\x7b'

/-- The character that a bracket is closed with. -/
def closing : Bracket → Char
  | angle => '>'
  | round => ')'
  | curly => '\x7d'

/-- The three kinds of `Bracket`. -/
def all : List Bracket := [angle, round, curly]

end Bracket

/-- The characters that open brackets. -/
def openings : List Char := Bracket.all.map Bracket.opening

/-- The characters that close brackets. -/
def closings : List Char := Bracket.all.map Bracket.closing

/-- The characters that texts are put together with: the comma, `openings` and `closings`. -/
def delimiters : List Char := ',' :: (openings ++ closings)

@[simp] theorem mem_delimiters {c : Char} : c ∈ delimiters ↔
    c = ',' ∨ c = '<' ∨ c = '(' ∨ c = '\x7b' ∨ c = '>' ∨ c = ')' ∨ c = '\x7d' := by
  simp [delimiters, openings, closings, Bracket.all, Bracket.opening, Bracket.closing]

theorem Bracket.opening_mem (b : Bracket) : b.opening ∈ openings := by
  cases b <;> decide

theorem Bracket.closing_mem (b : Bracket) : b.closing ∈ closings := by
  cases b <;> decide

/-- Different brackets are opened with different characters. -/
theorem Bracket.opening_injective {a b : Bracket} (h : a.opening = b.opening) : a = b := by
  cases a <;> cases b <;> first | rfl | exact absurd h (by decide)

variable {t t' r r' : List Char}

/-! ## Words -/

/-- Equal texts start with equal words, where a word ends before the first character that stands in
    no word. -/
theorem append_inj_of_word {p : Char → Bool} (ht : ∀ c ∈ t, p c = true)
    (ht' : ∀ c ∈ t', p c = true) (hr : r.takeWhile p = [])
    (hr' : r'.takeWhile p = []) (h : t ++ r = t' ++ r') : t = t' ∧ r = r' := by
  have hwords : t = t' := by
    -- A word is what `List.takeWhile` takes.
    have hstart := congrArg (List.takeWhile p) h
    rwa [List.takeWhile_append_of_pos ht, List.takeWhile_append_of_pos ht', hr, hr',
      List.append_nil, List.append_nil] at hstart
  subst hwords
  exact ⟨rfl, List.append_cancel_left h⟩

/-! ## Items -/

/-- What is left of a text after its first item: it starts with the first comma or closing bracket
    that has no opening one before it. `depth` counts the brackets that are open. -/
def afterItem : Nat → List Char → List Char
  | _, [] => []
  | depth, c :: rest =>
    if c ∈ openings then afterItem (depth + 1) rest
    else if depth = 0 ∧ (c = ',' ∨ c ∈ closings) then c :: rest
    else if c ∈ closings then afterItem (depth - 1) rest
    else afterItem depth rest

/-- Wherever the text stands, `afterItem` passes over it. -/
def IsItem (t : List Char) : Prop := ∀ depth r, afterItem depth (t ++ r) = afterItem depth r

/-- In brackets, where `depth` is not zero, `afterItem` passes over the text. -/
def IsInner (t : List Char) : Prop :=
  ∀ depth r, afterItem (depth + 1) (t ++ r) = afterItem (depth + 1) r

theorem isItem_nil : IsItem [] := fun _ _ => rfl

/-- An item is passed over in brackets, too. -/
theorem IsItem.inner (h : IsItem t) : IsInner t := fun depth r => h (depth + 1) r

theorem IsItem.append (h : IsItem t) (h' : IsItem t') : IsItem (t ++ t') := by
  intro depth r
  rw [List.append_assoc, h, h']

theorem IsInner.append (h : IsInner t) (h' : IsInner t') : IsInner (t ++ t') := by
  intro depth r
  rw [List.append_assoc, h, h']

/-- Characters that are no `delimiters` are passed over one by one. -/
theorem isItem_of_not_mem (h : ∀ c ∈ t, c ∉ delimiters) : IsItem t := by
  induction t with
  | nil => exact isItem_nil
  | cons c rest ih =>
    rw [List.forall_mem_cons] at h
    have hc : c ≠ ',' ∧ c ∉ openings ∧ c ∉ closings := by
      simpa [delimiters, not_or] using h.1
    intro depth r
    -- No bracket is opened, nothing ends, and no bracket is closed.
    rw [List.cons_append, afterItem, if_neg hc.2.1, if_neg (by simp [hc]), if_neg hc.2.2]
    exact ih h.2 depth r

/-- What is `IsInner` makes an item with brackets around it. -/
theorem IsInner.bracketed (h : IsInner t) (b : Bracket) :
    IsItem (b.opening :: (t ++ [b.closing])) := by
  intro depth r
  have hopen : b.closing ∉ openings := by cases b <;> decide
  -- The depth is one more inside, and what it was behind the closing bracket.
  rw [List.cons_append, List.append_assoc, afterItem, if_pos b.opening_mem, h,
    List.singleton_append, afterItem, if_neg hopen, if_neg (by omega), if_pos b.closing_mem,
    Nat.add_sub_cancel]

theorem isInner_separator : IsInner [',', ' '] := fun _ _ => rfl

/-- Two texts that start with items and go on after them have the same items: `afterItem` tells
    where these end. -/
theorem IsItem.append_inj (ht : IsItem t) (ht' : IsItem t') (hr : afterItem 0 r = r)
    (hr' : afterItem 0 r' = r') (h : t ++ r = t' ++ r') : t = t' ∧ r = r' := by
  have hrest : r = r' := by
    have hpassed := congrArg (afterItem 0) h
    rwa [ht, ht', hr, hr'] at hpassed
  subst hrest
  exact ⟨List.append_cancel_right h, rfl⟩

/-! ## Entries of a list -/

/-- What may stand in a list between commas: an `IsItem` that is not empty. -/
structure Entry (s : String) : Prop where
  isItem : IsItem s.toList
  ne_empty : s ≠ ""

/-- The texts of the entries with commas between them. -/
def joined (entries : List String) : List Char := [',', ' '].intercalate (entries.map String.toList)

/-- What follows an entry when the given ones are left: `joined` behind a comma, or nothing. -/
def tail : List String → List Char
  | [] => []
  | entries => ',' :: ' ' :: joined entries

variable {s : String} {entries entries' : List String}

/-- A word without `delimiters` is an `Entry`. -/
theorem Entry.of_not_mem (hs : ∀ c ∈ s.toList, c ∉ delimiters) (hne : s ≠ "") : Entry s :=
  ⟨isItem_of_not_mem hs, hne⟩

theorem joined_cons (s : String) (rest : List String) :
    joined (s :: rest) = s.toList ++ tail rest := by
  cases rest <;> simp [joined, tail]

/-- A `tail` starts where an item ends. -/
theorem afterItem_tail (rest : List String) : afterItem 0 (tail rest) = tail rest := by
  cases rest <;> rfl

/-- A `joined` list of entries may stand in brackets. -/
theorem isInner_joined (h : ∀ s ∈ entries, Entry s) : IsInner (joined entries) := by
  induction entries with
  | nil => exact isItem_nil.inner
  | cons s rest ih =>
    rw [List.forall_mem_cons] at h
    -- What follows the first entry is empty or begins with the separator.
    have htail : IsInner (tail rest) := by
      cases rest with
      | nil => exact isItem_nil.inner
      | cons => exact isInner_separator.append (ih h.2)
    rw [joined_cons]
    exact h.1.isItem.inner.append htail

/-- Lists of entries are equal where their `joined` texts are. -/
theorem joined_inj (h : ∀ s ∈ entries, Entry s) (h' : ∀ s ∈ entries', Entry s)
    (htext : joined entries = joined entries') : entries = entries' := by
  -- Only the text of the list without entries is empty.
  have hempty (s : String) (rest : List String) (hs : Entry s) : joined (s :: rest) ≠ [] := by
    simp [joined_cons, hs.ne_empty]
  induction entries generalizing entries' with
  | nil =>
    cases entries' with
    | nil => rfl
    | cons s' rest' => exact absurd htext.symm (hempty s' rest' (h' s' (.head _)))
  | cons s rest ih =>
    cases entries' with
    | nil => exact absurd htext (hempty s rest (h s (.head _)))
    | cons s' rest' =>
      rw [List.forall_mem_cons] at h h'
      rw [joined_cons, joined_cons] at htext
      obtain ⟨hfirst, htail⟩ := h.1.isItem.append_inj h'.1.isItem (afterItem_tail rest)
        (afterItem_tail rest') htext
      obtain rfl := String.toList_inj.mp hfirst
      -- After equal entries both lists end, or both go on after a comma.
      cases rest with
      | nil =>
        cases rest' with
        | nil => rfl
        | cons => cases htail
      | cons =>
        cases rest' with
        | nil => cases htail
        | cons =>
          obtain ⟨-, htail⟩ := List.cons_eq_cons.mp htail
          obtain ⟨-, htail⟩ := List.cons_eq_cons.mp htail
          rw [ih h.2 h'.2 htail]

end DocQuery.Text
