import DocQuery.Datum.Text
import DocQuery.Proofs.Datum.Finite
import DocQuery.Proofs.Json.RoundTrip

/-!
# The JSON text of a datum reads back

A datum goes through a JSON value to its text and back. Only the sign of a zero is lost on the way,
as zeros are written as the integer. Everything else comes back as it is: the order of items and of
members, members whose key comes up again, and the characters of strings.

## Key results

- `Datum.ofJson_toJson`: the JSON value of a datum is read as the datum without signs of zeros
- `Datum.read?_write_eq_unsignZeros`: so is the text of a datum
-/

namespace DocQuery.Datum

mutual

/-- The datum with zero for every negative zero. -/
def unsignZeros : Datum → Datum
  | number x => number x.unsignZero
  | array items => array (unsignZerosItems items)
  | object members => object (unsignZerosMembers members)
  | other => other

def unsignZerosItems : List Datum → List Datum
  | [] => []
  | item :: rest => unsignZeros item :: unsignZerosItems rest

def unsignZerosMembers : List (String × Datum) → List (String × Datum)
  | [] => []
  | (key, value) :: rest => (key, unsignZeros value) :: unsignZerosMembers rest

end

/-- `unsignZerosItems` is `unsignZeros` on each item. -/
theorem unsignZerosItems_eq_map (items : List Datum) :
    unsignZerosItems items = items.map unsignZeros := by
  induction items with
  | nil => rfl
  | cons item rest ih => rw [unsignZerosItems, ih, List.map_cons]

/-- `unsignZerosMembers` is `unsignZeros` on each value. -/
theorem unsignZerosMembers_eq_map (members : List (String × Datum)) :
    unsignZerosMembers members = members.map fun m => (m.1, m.2.unsignZeros) := by
  induction members with
  | nil => rfl
  | cons m rest ih => rw [unsignZerosMembers, ih, List.map_cons]

theorem unsignZeros_array (items : List Datum) :
    (array items).unsignZeros = array (items.map unsignZeros) := by
  rw [unsignZeros, unsignZerosItems_eq_map]

/-- `unsignZeros` goes down into the values of an object. -/
theorem unsignZeros_object (members : List (String × Datum)) :
    (object members).unsignZeros = object (members.map fun m => (m.1, m.2.unsignZeros)) := by
  rw [unsignZeros, unsignZerosMembers_eq_map]

mutual

/-- `toJson` nests a JSON value as deep as the datum. -/
theorem depth_toJson (d : Datum) : d.toJson.depth = d.depth := by
  cases d with
  | null | bool | string => rfl
  -- An integer and a number are both scalars.
  | number x => rw [toJson]; split <;> rfl
  | array items => exact congrArg (· + 1) (depth_toJsonItems items)
  | object members => exact congrArg (· + 1) (depth_toJsonMembers members)

/-- `depth_toJson` for the items of an array. -/
theorem depth_toJsonItems (items : List Datum) :
    Json.depthItems (toJsonItems items) = depthItems items := by
  cases items with
  | nil => rfl
  | cons d items =>
    rw [toJsonItems, Json.depthItems, depth_toJson d, depth_toJsonItems items, depthItems]

/-- `depth_toJson` for the members of an object. -/
theorem depth_toJsonMembers (members : List (String × Datum)) :
    Json.depthMembers (toJsonMembers members) = depthMembers members := by
  cases members with
  | nil => rfl
  | cons m members =>
    obtain ⟨key, d⟩ := m
    rw [toJsonMembers, Json.depthMembers, depth_toJson d, depth_toJsonMembers members,
      depthMembers]

end

/-- `toJson` writes a finite number as a `Numeral`, which `ofJson` reads without the sign of a
    zero. -/
theorem toJson_number {x : Binary64} (h : x.isFinite = true) :
    (number x).toJson.Numeral ∧ ofJson (number x).toJson = number x.unsignZero := by
  rw [toJson]
  cases hx : safeInteger? x with
  | none =>
    -- A zero is written as an integer.
    have hzero : x.toRat? ≠ some 0 := by
      intro hzero
      have hsafe : safeInteger? x = some 0 :=
        safeInteger?_eq_some_iff.mpr ⟨hzero, Nat.zero_le _⟩
      rw [hx] at hsafe
      cases hsafe
    exact ⟨.of_leaf rfl h, congrArg number (if_neg hzero).symm⟩
  | some n =>
    obtain ⟨hexact, hsafe⟩ := safeInteger?_eq_some_iff.mp hx
    -- A safe integer is well inside the words that a text can have.
    have hword : Json.isWord n = true := by
      have hsafe : n.natAbs ≤ 9007199254740992 := hsafe
      have hleast : -9223372036854775808 ≤ n := by omega
      have hgreatest : n ≤ 18446744073709551615 := by omega
      exact Bool.and_eq_true_iff.mpr ⟨decide_eq_true hleast, decide_eq_true hgreatest⟩
    exact ⟨.of_leaf rfl hword, congrArg number (Binary.ofInt_of_toRat? Format.double_valid hexact)⟩

/-- `toJsonItems` is `toJson` on each item. -/
theorem toJsonItems_eq_map (items : List Datum) : toJsonItems items = items.map toJson := by
  induction items with
  | nil => rfl
  | cons item rest ih => rw [toJsonItems, ih, List.map_cons]

/-- `toJsonMembers` is `toJson` on each value. -/
theorem toJsonMembers_eq_map (members : List (String × Datum)) :
    toJsonMembers members = members.map fun m => (m.1, m.2.toJson) := by
  induction members with
  | nil => rfl
  | cons m rest ih => rw [toJsonMembers, ih, List.map_cons]

/-- The JSON value of a `Finite` datum has only numbers that a text can stand for: it is a
    `Numeral`. -/
theorem numeral_toJson {d : Datum} (h : d.Finite) : d.toJson.Numeral := by
  -- Induction on the finite datum. Its parts are the items or the values of the members.
  induction h with
  | @intro d top _ ih =>
    cases d with
    | null | bool | string => exact .of_leaf rfl trivial
    | number x => exact (toJson_number top).1
    | array items =>
      rw [toJson, toJsonItems_eq_map]
      exact Json.numeral_array (List.forall_mem_map.mpr ih)
    | object members =>
      rw [toJson, toJsonMembers_eq_map]
      refine Json.numeral_object (List.forall_mem_map.mpr fun m hm => ?_)
      exact ih m.2 (List.mem_map_of_mem hm)

mutual

/-- `ofJson` reads what `toJson` writes as the datum with `unsignZeros`. -/
theorem ofJson_toJson (d : Datum) (h : d.Finite) : ofJson d.toJson = d.unsignZeros := by
  cases d with
  | null | bool | string => rfl
  | number x => exact (toJson_number h.at_top).2
  | array items => exact congrArg array (ofJsonItems_toJsonItems items fun d hd => h.at_part hd)
  | object members =>
    exact congrArg object (ofJsonMembers_toJsonMembers members fun m hm =>
      h.at_part (List.mem_map_of_mem hm))

/-- `ofJson_toJson` for the items of an array. -/
theorem ofJsonItems_toJsonItems (items : List Datum) (h : ∀ d ∈ items, d.Finite) :
    ofJsonItems (toJsonItems items) = unsignZerosItems items := by
  cases items with
  | nil => rfl
  | cons d items =>
    obtain ⟨hd, hitems⟩ := List.forall_mem_cons.mp h
    rw [toJsonItems, ofJsonItems, ofJson_toJson d hd, ofJsonItems_toJsonItems items hitems,
      unsignZerosItems]

/-- `ofJson_toJson` for the members of an object. Keys that come up again are kept on this way. -/
theorem ofJsonMembers_toJsonMembers (members : List (String × Datum))
    (h : ∀ m ∈ members, m.2.Finite) :
    ofJsonMembers (toJsonMembers members) = unsignZerosMembers members := by
  cases members with
  | nil => rfl
  | cons m members =>
    obtain ⟨key, d⟩ := m
    obtain ⟨hd, hmembers⟩ := List.forall_mem_cons.mp h
    rw [toJsonMembers, ofJsonMembers, ofJson_toJson d hd,
      ofJsonMembers_toJsonMembers members hmembers, unsignZerosMembers]

end

mutual

/-- A `Finite` datum is the `same` with `unsignZeros`, as zeros are equal. -/
theorem same_unsignZeros (d : Datum) (h : d.Finite) : same d.unsignZeros d = true := by
  cases d with
  | null => rfl
  | bool b => simp [unsignZeros, same]
  | string s => simp [unsignZeros, same]
  | number x => exact Binary.unsignZero_beq Format.double_valid h.at_top
  | array items => exact sameItems_unsignZeros items fun d hd => h.at_part hd
  | object members =>
    exact sameMembers_unsignZeros members fun m hm => h.at_part (List.mem_map_of_mem hm)

/-- `same_unsignZeros` for the items of an array. -/
theorem sameItems_unsignZeros (items : List Datum) (h : ∀ d ∈ items, d.Finite) :
    sameItems (unsignZerosItems items) items = true := by
  cases items with
  | nil => rfl
  | cons d items =>
    obtain ⟨hd, hitems⟩ := List.forall_mem_cons.mp h
    rw [unsignZerosItems, sameItems, same_unsignZeros d hd, sameItems_unsignZeros items hitems]
    rfl

/-- `same_unsignZeros` for the members of an object. -/
theorem sameMembers_unsignZeros (members : List (String × Datum))
    (h : ∀ m ∈ members, m.2.Finite) :
    sameMembers (unsignZerosMembers members) members = true := by
  cases members with
  | nil => rfl
  | cons m members =>
    obtain ⟨key, d⟩ := m
    obtain ⟨hd, hmembers⟩ := List.forall_mem_cons.mp h
    rw [unsignZerosMembers, sameMembers, same_unsignZeros d hd,
      sameMembers_unsignZeros members hmembers, beq_self_eq_true]
    rfl

end

/-- `read?` takes the text of a `Finite` datum that is nested at most 127 deep back to the datum
    with `unsignZeros`, and so to an equal datum. Whole numbers up to `2 ^ 53` go through the texts
    of integers. -/
theorem read?_write_eq_unsignZeros {d : Datum} (hfinite : d.Finite) (hdepth : d.depth ≤ 127) :
    read? d.write = some d.unsignZeros ∧ (d.unsignZeros == d) = true ∧
      ∀ (x : Binary64) (n : Int), x.toRat? = some (n : Rat) → n.natAbs ≤ 9007199254740992 →
        (number x).write = toString n := by
  have hjson : d.toJson.depth ≤ Json.maxDepth := (depth_toJson d).trans_le hdepth
  refine ⟨?_, same_unsignZeros d hfinite, fun x n hexact hsafe => ?_⟩
  · -- The text is read as the JSON value it was written from, and that as the datum.
    rw [read?, write, Json.read?_write (numeral_toJson hfinite) hjson, Option.map_some,
      ofJson_toJson d hfinite]
  · rw [write, toJson, safeInteger?_eq_some_iff.mpr ⟨hexact, hsafe⟩]
    rfl

example : (array [number (.zero true), string "\"\\\n\x01é"]).write =
    "[0,\"\\\"\\\\\\n\\u0001é\"]" := by
  decide +kernel

/-- An object with a key that comes up again, a negative zero, half of one and escapes. -/
def repeated : Datum :=
  object [("a", array [number (.zero true), number (Binary.ofRat (1 / 2))]),
    ("a", string "\"\\\n\x01é")]

/-- The text of `repeated`, in which a key comes up again, reads back with that key twice. -/
theorem read?_write_eq_unsignZeros_repeated : repeated.Finite ∧ repeated.depth ≤ 127 ∧
    read? repeated.write = some repeated.unsignZeros ∧ (repeated.unsignZeros == repeated) = true ∧
      ∀ (x : Binary64) (n : Int), x.toRat? = some (n : Rat) → n.natAbs ≤ 9007199254740992 →
        (number x).write = toString n := by
  have hnumber {x : Binary64} (h : x.isFinite = true) : (number x).Finite := .of_leaf rfl h
  -- Of the leaves, `Finite` asks only about the numbers.
  have hitems : ∀ d ∈ [number (.zero true), number (Binary.ofRat (1 / 2))], d.Finite :=
    List.forall_mem_cons.mpr ⟨hnumber (by decide +kernel),
      List.forall_mem_singleton.mpr (hnumber (by decide +kernel))⟩
  have hfinite : repeated.Finite := by
    refine .intro trivial (List.forall_mem_cons.mpr ⟨.intro trivial hitems, ?_⟩)
    exact List.forall_mem_singleton.mpr (.of_leaf rfl trivial)
  exact ⟨hfinite, by decide, read?_write_eq_unsignZeros hfinite (by decide)⟩

end DocQuery.Datum
