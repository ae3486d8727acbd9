import DocQuery.Proofs.Datum.Text

/-!
# JSON values of datums

A datum becomes a JSON value in two ways: as it stands, and in the form of its text, where a whole
number is an integer. Neither has a place for numbers that are not finite or for a key that comes up
again, so what comes back is the settled datum, without them. The two ways differ in the sign of a
zero only.

## Key results

- `Datum.ofJson_toValue_eq`, `Datum.ofJson_serialize_eq`: what comes back on each way
- `Datum.jsonValues_agree`: the two ways agree, and keep what has nothing to settle
-/

namespace DocQuery

open Members (merged ofList)

namespace Json

/-- `settleItems` settles each item. -/
theorem settleItems_eq_map (items : List Json) : settleItems items = items.map settle := by
  induction items with
  | nil => rfl
  | cons item rest ih => rw [settleItems, ih, List.map_cons]

/-- `settleMembers` settles each value and sets it under its key, after what is `done`. -/
theorem settleMembers_eq_foldl (done members : List (String × Json)) :
    settleMembers done members = (members.map fun m => (m.1, m.2.settle)).foldl
      (fun done (name, value) => Members.set name value done) done := by
  induction members generalizing done with
  | nil => rfl
  | cons m rest ih => rw [settleMembers, ih, List.map_cons, List.foldl_cons]

end Json

namespace Datum

mutual

/-- The datum with null for every number that is not finite and with every key of an object once, at
    its first place with its last value. -/
def settled : Datum → Datum
  | number x => if x.isFinite then number x else null
  | array items => array (settledItems items)
  | object members => object (merged (settledMembers members))
  | other => other

def settledItems : List Datum → List Datum
  | [] => []
  | item :: rest => settled item :: settledItems rest

def settledMembers : List (String × Datum) → List (String × Datum)
  | [] => []
  | (key, value) :: rest => (key, settled value) :: settledMembers rest

end

/-- `settledItems` is `settled` on each item. -/
theorem settledItems_eq_map (items : List Datum) : settledItems items = items.map settled := by
  induction items with
  | nil => rfl
  | cons item rest ih => rw [settledItems, ih, List.map_cons]

/-- `settledMembers` is `settled` on each value. -/
theorem settledMembers_eq_map (members : List (String × Datum)) :
    settledMembers members = members.map fun m => (m.1, m.2.settled) := by
  induction members with
  | nil => rfl
  | cons m rest ih => rw [settledMembers, ih, List.map_cons]

theorem settled_array (items : List Datum) :
    (array items).settled = array (items.map settled) := by
  rw [settled, settledItems_eq_map]

/-- An object is `settled` value by value, and then its keys are merged by `ofList`. -/
theorem settled_object (members : List (String × Datum)) :
    (object members).settled = object (ofList (members.map fun m => (m.1, m.2.settled))) := by
  rw [settled, settledMembers_eq_map, Members.ofList_eq_merged]

/-! ## The two ways -/

theorem ofJson_array (items : List Json) : ofJson (.array items) = array (items.map ofJson) := by
  rw [ofJson, ofJsonItems_eq]

/-- `ofJson` reads members before or after their keys are merged by `ofList`: the values follow
    their keys. -/
theorem ofJson_object_ofList (members : List (String × Json)) :
    ofJson (.object (ofList members)) =
      object (ofList (members.map fun m => (m.1, ofJson m.2))) := by
  rw [ofJson, ofJsonMembers_eq, ← Members.ofList_map]

/-- `toValueItems` is `toValue` on each item. -/
theorem toValueItems_eq_map (items : List Datum) : toValueItems items = items.map toValue := by
  induction items with
  | nil => rfl
  | cons item rest ih => rw [toValueItems, ih, List.map_cons]

/-- `toValueMembers` sets the values under their keys, after what is `done`. -/
theorem toValueMembers_eq_foldl (done : List (String × Json)) (members : List (String × Datum)) :
    toValueMembers done members = (members.map fun m => (m.1, m.2.toValue)).foldl
      (fun done (name, value) => Members.set name value done) done := by
  induction members generalizing done with
  | nil => rfl
  | cons m rest ih => rw [toValueMembers, ih, List.map_cons, List.foldl_cons]

theorem toValue_array (items : List Datum) :
    (array items).toValue = .array (items.map toValue) := by
  rw [toValue, toValueItems_eq_map]

/-- `toValue` writes an object value by value and merges the keys by `ofList`. -/
theorem toValue_object (members : List (String × Datum)) :
    (object members).toValue = .object (ofList (members.map fun m => (m.1, m.2.toValue))) := by
  rw [toValue, toValueMembers_eq_foldl, ofList]

/-- `serialize` writes an array item by item. -/
theorem serialize_array (items : List Datum) :
    (array items).serialize = .array (items.map serialize) := by
  rw [serialize, toJson, Json.settle, toJsonItems_eq_map, Json.settleItems_eq_map, List.map_map]
  rfl

/-- `serialize` writes an object value by value and merges the keys by `ofList`. -/
theorem serialize_object (members : List (String × Datum)) :
    (object members).serialize =
      .object (ofList (members.map fun m => (m.1, m.2.serialize))) := by
  rw [serialize, toJson, Json.settle, toJsonMembers_eq_map, Json.settleMembers_eq_foldl,
    List.map_map, ofList]
  rfl

/-- Where `ofJson` reads each value that `write` wrote as `read` has it, it reads an object of them
    so too. Both `toValue` and `serialize` are such a `write`. -/
theorem ofJson_members_congr (write : Datum → Json) (read : Datum → Datum)
    {members : List (String × Datum)} (h : ∀ m ∈ members, ofJson (write m.2) = read m.2) :
    ofJson (.object (ofList (members.map fun m => (m.1, write m.2)))) =
      object (ofList (members.map fun m => (m.1, read m.2))) := by
  rw [ofJson_object_ofList, List.map_map]
  refine congrArg (fun members => object (ofList members)) (List.map_congr_left fun m hm => ?_)
  exact congrArg (Prod.mk m.1) (h m hm)

/-- `ofJson` reads what `toValue` wrote as the `settled` datum. -/
theorem ofJson_toValue_eq (d : Datum) : ofJson d.toValue = d.settled := by
  induction d using parts_induction with
  | node d ih =>
    cases d with
    | null | bool | string => rfl
    | number x =>
      -- A number that is not finite has no JSON value, so null is written.
      rw [toValue, settled]
      split <;> rfl
    | array items =>
      rw [toValue_array, ofJson_array, List.map_map, settled_array]
      exact congrArg array (List.map_congr_left ih)
    | object members =>
      rw [toValue_object, settled_object]
      exact ofJson_members_congr toValue settled fun m hm => ih m.2 (List.mem_map_of_mem hm)

/-- `serialize` writes a finite number as `toJson` does, as an integer or as a number, and another
    one as null. -/
theorem serialize_number (x : Binary64) :
    (number x).serialize = if x.isFinite then (number x).toJson else .null := by
  rw [serialize, toJson]
  -- Only a finite number can be an integer, so integers need no second look.
  cases hx : safeInteger? x with
  | none => rfl
  | some n =>
    have hfinite : x.isFinite = true :=
      Binary.isFinite_of_toRat? (safeInteger?_eq_some_iff.mp hx).1
    rw [if_pos hfinite]
    rfl

/-- `ofJson` reads what `serialize` wrote as the `settled` datum with `unsignZeros`. -/
theorem ofJson_serialize_eq (d : Datum) : ofJson d.serialize = d.settled.unsignZeros := by
  induction d using parts_induction with
  | node d ih =>
    cases d with
    | null | bool | string => rfl
    | number x =>
      rw [serialize_number, settled]
      split
      · rename_i hfinite
        exact (toJson_number hfinite).2
      · rfl
    | array items =>
      -- Both normal forms go down into the items.
      rw [serialize_array, ofJson_array, List.map_map, settled_array, unsignZeros_array,
        List.map_map]
      exact congrArg array (List.map_congr_left ih)
    | object members =>
      -- Here they go down into the values, and keys are merged once, after them.
      rw [serialize_object, settled_object, unsignZeros_object, ← Members.ofList_map,
        List.map_map]
      exact ofJson_members_congr serialize (fun d => d.settled.unsignZeros) fun m hm =>
        ih m.2 (List.mem_map_of_mem hm)

/-! ## Nothing to settle -/

/-- A `settled` datum is `Finite`. -/
theorem finite_settled (d : Datum) : d.settled.Finite := by
  induction d using parts_induction with
  | node d ih =>
    cases d with
    | null | bool | string => exact .of_leaf rfl trivial
    | number x =>
      rw [settled]
      split
      · rename_i hfinite
        exact .of_leaf rfl hfinite
      · exact .of_leaf rfl trivial
    | array items =>
      rw [settled_array]
      exact .intro trivial (List.forall_mem_map.mpr ih)
    | object members =>
      rw [settled_object]
      refine .intro trivial fun part hpart => ?_
      -- Merging leaves values of the members only.
      have hmem := (Members.values_ofList_subperm _).subset hpart
      rw [List.map_map] at hmem
      obtain ⟨m, hm, rfl⟩ := List.mem_map.mp hmem
      exact ih m.2 (List.mem_map_of_mem hm)

/-- A `Sendable` datum, with finite numbers and distinct keys, is `settled`. -/
theorem settled_of_sendable {d : Datum} (h : d.Sendable) : d.settled = d := by
  induction h with
  | @intro d top _ ih =>
    cases d with
    | null | bool | string => rfl
    | number x => exact if_pos top
    | array items =>
      rw [settled_array]
      exact congrArg array ((List.map_congr_left ih).trans (List.map_id' items))
    | object members =>
      -- No key comes up twice, so merging keeps the members as they are.
      have hmembers : (members.map fun m => (m.1, m.2.settled)) = members := by
        refine (List.map_congr_left fun m hm => ?_).trans (List.map_id' members)
        exact congrArg (Prod.mk m.1) (ih m.2 (List.mem_map_of_mem hm))
      rw [settled_object, hmembers, Members.ofList_of_nodup top]

/-- Both JSON values of a datum are read as the `settled` datum, that of `serialize` with
    `unsignZeros`, so that they are read as equal datums. A `Sendable` datum, with finite numbers
    and distinct keys, comes back as it is. -/
theorem jsonValues_agree (d : Datum) :
    ofJson d.toValue = d.settled ∧ ofJson d.serialize = d.settled.unsignZeros ∧
      (ofJson d.serialize == d.settled) = true ∧ (ofJson d.serialize == ofJson d.toValue) = true ∧
      (d.Sendable → ofJson d.toValue = d ∧ (ofJson d.serialize == d) = true) := by
  -- A settled datum is finite, so losing the signs of zeros leaves it equal.
  have hsame : (ofJson d.serialize == d.settled) = true := by
    rw [ofJson_serialize_eq]
    exact same_unsignZeros d.settled (finite_settled d)
  refine ⟨ofJson_toValue_eq d, ofJson_serialize_eq d, hsame, ?_, fun h => ?_⟩
  · rw [ofJson_toValue_eq]
    exact hsame
  · rw [settled_of_sendable h] at hsame
    exact ⟨(ofJson_toValue_eq d).trans (settled_of_sendable h), hsame⟩

/-- An object with a negative zero and an array. -/
def levels : Datum :=
  object [("low", number (.zero true)), ("marks", array [number (Binary.ofRat (1 / 2)), null])]

/-- The datum `levels` is `Sendable` and comes back on both ways, though `serialize` drops the sign
    of its zero. -/
theorem jsonValues_agree_levels : levels.Sendable ∧ ofJson levels.toValue = levels ∧
    (ofJson levels.serialize == levels) = true := by
  -- From the inside out: the array of marks, then the object that holds it.
  have hmarks : (array [number (Binary.ofRat (1 / 2)), null]).Sendable := by
    refine .intro trivial (List.forall_mem_cons.mpr ⟨?_, List.forall_mem_singleton.mpr ?_⟩)
    · exact .of_leaf rfl (by decide +kernel : (Binary.ofRat (1 / 2) : Binary64).isFinite = true)
    · exact .of_leaf rfl trivial
  have hlevels : levels.Sendable := by
    refine .intro (by decide : ["low", "marks"].Nodup) (List.forall_mem_cons.mpr ⟨?_, ?_⟩)
    · exact .of_leaf rfl (by decide +kernel : (Binary.zero true : Binary64).isFinite = true)
    · exact List.forall_mem_singleton.mpr hmarks
  exact ⟨hlevels, (jsonValues_agree levels).2.2.2.2 hlevels⟩

end Datum

end DocQuery
