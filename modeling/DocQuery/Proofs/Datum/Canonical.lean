import Mathlib.Data.List.Sort
import DocQuery.Proofs.Codec.Infer
import DocQuery.Proofs.Datum.Wire

/-!
# Canonical documents

A document is canonical when the members of its plain objects are in the order of their keys and
its byte strings and groupings hold nothing but their tag and their data. The inferred type of a
document does not depend on the order of members.

## Key results

- `Datum.sortMembers_eq`: members in the order of their keys are what sorting gives
- `Datum.tag?_canonical_members`: objects have the tag of those with canonical members
- `Datum.inferItems_congr`: arrays have one type where their items do
-/

namespace DocQuery

namespace Datum

/-! ## Canonical forms -/

/-- The members in the order of their keys. -/
def sortMembers (members : List (String × Datum)) : List (String × Datum) :=
  members.mergeSort fun m m' => decide (m.1 ≤ m'.1)

/-- The first members of the keys, in the order of the keys. -/
def keepMembers (keys : List String) (members : List (String × Datum)) : List (String × Datum) :=
  keys.filterMap fun key => (Members.get? key members).map fun value => (key, value)

mutual

/-- The members of plain objects are sorted by their keys, byte strings and groupings keep only
    their tag and their data in that order, and nothing else is changed. -/
def canonical (d : Datum) : Datum :=
  match d with
  | array items => array (canonicalItems items)
  | object members =>
    match (object members).tag? with
    | none => object (sortMembers (canonicalMembers members))
    | some tag =>
      if tag = binaryTag ∨ tag = groupedTag then
        object (keepMembers [tagKey, "data"] (canonicalMembers members))
      else object members
  | other => other

def canonicalItems : List Datum → List Datum
  | [] => []
  | item :: rest => canonical item :: canonicalItems rest

def canonicalMembers : List (String × Datum) → List (String × Datum)
  | [] => []
  | (key, value) :: rest => (key, canonical value) :: canonicalMembers rest

end

/-- `canonicalItems` is `canonical` on each item. -/
theorem canonicalItems_eq_map (items : List Datum) :
    canonicalItems items = items.map canonical := by
  induction items with
  | nil => rfl
  | cons item rest ih => rw [canonicalItems, ih, List.map_cons]

/-- `canonicalMembers` is `canonical` on each value. -/
theorem canonicalMembers_eq_map (members : List (String × Datum)) :
    canonicalMembers members = members.map fun m => (m.1, canonical m.2) := by
  induction members with
  | nil => rfl
  | cons m rest ih =>
    obtain ⟨key, value⟩ := m
    rw [canonicalMembers, ih, List.map_cons]

@[simp] theorem canonical_null : canonical null = null := by simp [canonical]

@[simp] theorem canonical_bool (b : Bool) : canonical (bool b) = bool b := by simp [canonical]

@[simp] theorem canonical_number (x : Binary64) : canonical (number x) = number x := by
  simp [canonical]

@[simp] theorem canonical_string (s : String) : canonical (string s) = string s := by
  simp [canonical]

@[simp] theorem canonical_array (items : List Datum) :
    canonical (array items) = array (items.map canonical) := by
  rw [canonical, canonicalItems_eq_map]

/-- A plain object has its values made `canonical` and its members sorted. -/
theorem canonical_plain {members : List (String × Datum)} (h : (object members).tag? = none) :
    canonical (object members) =
      object (sortMembers (members.map fun m => (m.1, canonical m.2))) := by
  rw [canonical, h]
  dsimp only
  rw [canonicalMembers_eq_map]

/-- `get?` finds the `canonical` form of what it finds among the members. -/
theorem get?_map_canonical (key : String) (members : List (String × Datum)) :
    Members.get? key (members.map fun m => (m.1, canonical m.2)) =
      (Members.get? key members).map canonical := by
  induction members with
  | nil => rfl
  | cons m rest ih =>
    obtain ⟨k, v⟩ := m
    rw [List.map_cons, Members.get?, Members.get?]
    split
    · rfl
    · exact ih

/-- Of a byte string or a grouping `canonical` keeps the tag and the data. -/
theorem canonical_tagged {d data : Datum} {tag : String}
    (htag : d.tag? = some tag) (hkept : tag = binaryTag ∨ tag = groupedTag)
    (hdata : d.get? "data" = some data) :
    d.canonical = object [(tagKey, string tag), ("data", data.canonical)] := by
  cases d with
  | object members =>
    -- The tag is a string, and a `canonical` string is the string.
    have hfirst : Members.get? tagKey members = some (string tag) := by
      obtain ⟨value, hvalue, hstring⟩ := Option.bind_eq_some_iff.mp htag
      cases value with
      | string s =>
        obtain rfl := Option.some.inj hstring
        exact hvalue
      | _ => cases hstring
    have hsecond : Members.get? "data" members = some data := hdata
    rw [canonical, htag]
    dsimp only
    rw [if_pos hkept, canonicalMembers_eq_map]
    simp only [keepMembers, List.filterMap_cons, List.filterMap_nil, get?_map_canonical, hfirst,
      hsecond, Option.map_some, canonical]
  | _ => cases hdata

/-! ## Sorting -/

/-- Members in the order of their distinct keys are what `sortMembers` gives. -/
theorem sortMembers_eq {members sorted : List (String × Datum)} (hperm : sorted.Perm members)
    (hsorted : (sorted.map Prod.fst).Pairwise (· < ·)) : sortMembers members = sorted := by
  have hnodup : (members.map Prod.fst).Nodup :=
    (hperm.map Prod.fst).nodup_iff.mp (hsorted.imp ne_of_lt)
  have hmerge : (sortMembers members).Perm members := List.mergeSort_perm _ _
  -- Sorting puts no key after a greater one, and no two keys are equal.
  have hle : (sortMembers members).Pairwise fun m m' => m.1 ≤ m'.1 := by
    have h : (sortMembers members).Pairwise fun m m' => decide (m.1 ≤ m'.1) = true := by
      refine List.pairwise_mergeSort (fun a b c hab hbc => ?_) (fun a b => ?_) members
      · rw [decide_eq_true_eq] at hab hbc ⊢
        exact hab.trans hbc
      · rw [Bool.or_eq_true, decide_eq_true_eq, decide_eq_true_eq]
        exact le_total _ _
    exact h.imp of_decide_eq_true
  have hne : (sortMembers members).Pairwise fun m m' => m.1 ≠ m'.1 :=
    List.pairwise_map.mp ((hmerge.map Prod.fst).nodup_iff.mpr hnodup)
  have hlt : (sortMembers members).Pairwise fun m m' => m.1 < m'.1 :=
    (hle.and hne).imp fun h => lt_of_le_of_ne h.1 h.2
  -- Two lists in strict order with the same members are one list.
  refine (hmerge.trans hperm.symm).eq_of_pairwise (fun a b _ _ hab hba => ?_) hlt
    (List.pairwise_map.mp hsorted)
  exact absurd (hab.trans hba) (lt_irrefl _)

/-! ## Equal documents -/

/-- Datums that are the `same` are null together. -/
theorem isNull_eq_of_same {d d' : Datum} (h : d'.same d = true) : d'.isNull = d.isNull := by
  -- Constructors that differ are never the same.
  cases d' <;> cases d <;> first | rfl | simp [same] at h

/-- The `canonical` form is null where the datum is. -/
theorem isNull_canonical (d : Datum) : d.canonical.isNull = d.isNull := by
  cases d with
  | object members =>
    rw [canonical]
    split
    · -- An object stays an object, whatever tag it has.
      rfl
    · split <;> rfl
  | _ => rfl

/-- `get?` finds the same string in members that `sameMembers` accepts, or none in either. -/
theorem get?_eq_of_sameMembers {members members' : List (String × Datum)}
    (h : sameMembers members' members = true) (key : String) :
    (Members.get? key members').bind asString? = (Members.get? key members).bind asString? := by
  induction members' generalizing members with
  | nil =>
    cases members with
    | nil => rfl
    | cons m rest => simp [sameMembers] at h
  | cons m' rest' ih =>
    obtain ⟨k', v'⟩ := m'
    cases members with
    | nil => simp [sameMembers] at h
    | cons m rest =>
      obtain ⟨k, v⟩ := m
      simp only [sameMembers, Bool.and_eq_true, beq_iff_eq] at h
      obtain ⟨⟨rfl, hsame⟩, hrest⟩ := h
      rw [Members.get?, Members.get?]
      split
      · -- Values that are the same are strings together, and then the same string.
        -- Two strings that are the same are equal, and other datums are no strings.
        cases v' <;> cases v <;> first | rfl | simp [same] at hsame
        simp [asString?, hsame]
      · exact ih hrest

/-- The `canonical` form is a string where the datum is, and the same one. -/
theorem asString?_canonical (d : Datum) : d.canonical.asString? = d.asString? := by
  cases d with
  | object members =>
    rw [canonical]
    split
    · rfl
    · split <;> rfl
  | _ => rfl

/-- An object has the `tag?` of the object with `canonical` values: only a string is a tag. -/
theorem tag?_canonical_members (members : List (String × Datum)) :
    (object (members.map fun m => (m.1, canonical m.2))).tag? = (object members).tag? := by
  rw [tag?, tag?, get?, get?, get?_map_canonical]
  cases Members.get? tagKey members with
  | none => rfl
  | some d => exact asString?_canonical d

/-! ## Inferred types -/

/-- `inferType` takes a plain object for a map. -/
theorem inferType_plain {members : List (String × Datum)} (h : (object members).tag? = none) :
    (object members).inferType = .ok (.map .dynamic) := by
  rw [inferType, h]

/-- `inferType` gives pseudo types of one `tag?` one type. -/
theorem inferType_eq_of_tag? {tag : String} {d d' : Datum} (h : d.tag? = some tag)
    (h' : d'.tag? = some tag) : d'.inferType = d.inferType := by
  cases d with
  | object members =>
    cases d' with
    | object members' => rw [inferType, inferType, h, h']
    | _ => cases h'
  | _ => cases h

/-- `inferItems` gives one type for items that have the same types and are null at the same
    places. -/
theorem inferItems_congr {items items' : List Datum}
    (h : List.Forall₂ (fun item item' => item'.isNull = item.isNull ∧
      item'.inferType = item.inferType) items items') (sawNull : Bool) (common : Option Ty) :
    inferItems sawNull common items' = inferItems sawNull common items := by
  -- Induction on the two lists. Each step looks at an item only through what `h` says of it.
  induction h generalizing sawNull common with
  | nil => rfl
  | @cons item item' items items' hitem _ ih =>
    rw [inferItems, inferItems, hitem.1, hitem.2]
    split
    · exact ih _ _
    · refine bind_congr fun type => ?_
      cases common with
      | none => exact ih _ _
      | some current =>
        dsimp only
        split
        · exact ih _ _
        · rfl

end Datum

end DocQuery
