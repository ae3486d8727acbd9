import DocQuery.Codec.Encode
import DocQuery.Proofs.Datum.Wire
import DocQuery.Proofs.Members
import DocQuery.Proofs.Schema.Naming

/-!
# Parts are less deep

What a value or a document holds is less deep than the value or the document itself.

## Key results

- `Value.depth_lt_of_mem_parts`, `Datum.depth_lt_of_mem_parts`: the parts are less deep
- `Datum.mem_parts_of_get?`, `Datum.mem_parts_of_asArray?`: what is found under a key is a part
-/

namespace DocQuery

namespace Value

/-- An item is at most as deep as all items: `depthItems`. -/
theorem depth_le_depthItems {item : Value} {items : List Value} (h : item ∈ items) :
    item.depth ≤ depthItems items := by
  induction items with
  | nil => cases h
  | cons head rest ih =>
    rw [depthItems]
    cases h with
    | head => exact le_max_left _ _
    | tail _ h => exact (ih h).trans (le_max_right _ _)

/-- A value of an entry is at most as deep as all entries: `depthEntries`. -/
theorem depth_le_depthEntries {entry : String × Value} {entries : List (String × Value)}
    (h : entry ∈ entries) : entry.2.depth ≤ depthEntries entries := by
  induction entries with
  | nil => cases h
  | cons head rest ih =>
    obtain ⟨key, value⟩ := head
    rw [depthEntries]
    cases h with
    | head => exact le_max_left _ _
    | tail _ h => exact (ih h).trans (le_max_right _ _)

/-- Keys and values are at most as deep as all groups: `depthGroups`. -/
theorem depth_le_depthGroups {group : Value × Value} {groups : List (Value × Value)}
    (h : group ∈ groups) :
    group.1.depth ≤ depthGroups groups ∧ group.2.depth ≤ depthGroups groups := by
  induction groups with
  | nil => cases h
  | cons head rest ih =>
    obtain ⟨key, value⟩ := head
    -- The depth of groups is the greatest of the depths of the front group and of the rest.
    rw [depthGroups]
    cases h with
    | head =>
      exact ⟨(le_max_left _ _).trans (le_max_left _ _), (le_max_right _ _).trans (le_max_left _ _)⟩
    | tail _ h => exact ⟨(ih h).1.trans (le_max_right _ _), (ih h).2.trans (le_max_right _ _)⟩

/-- The `parts` of a value have less `depth` than the value. -/
theorem depth_lt_of_mem_parts {part v : Value} (h : part ∈ v.parts) : part.depth < v.depth := by
  cases v with
  | list items | tuple items | record type items =>
    rw [depth]
    exact Nat.lt_succ_of_le (depth_le_depthItems h)
  | map entries =>
    obtain ⟨entry, hentry, rfl⟩ := List.mem_map.mp h
    rw [depth]
    exact Nat.lt_succ_of_le (depth_le_depthEntries hentry)
  | grouping groups =>
    obtain ⟨group, hgroup, hpart⟩ := List.mem_flatMap.mp h
    obtain ⟨hkey, hvalue⟩ := depth_le_depthGroups hgroup
    simp only [List.mem_cons, List.not_mem_nil, or_false] at hpart
    rw [depth]
    -- A group holds a key and a value, and both are parts.
    rcases hpart with rfl | rfl
    · exact Nat.lt_succ_of_le hkey
    · exact Nat.lt_succ_of_le hvalue
  | _ => cases h

/-- What holds of all values holds `Everywhere` in a value, by induction on its `depth`. -/
theorem everywhere_of_forall {holds : Value → Prop} (h : ∀ v, holds v) (v : Value) :
    Everywhere parts holds v := by
  induction hdepth : v.depth using Nat.strong_induction_on generalizing v with
  | _ depth ih =>
    exact .intro (h v) fun p hp => ih p.depth (hdepth ▸ depth_lt_of_mem_parts hp) p rfl

end Value

namespace Datum

/-- An item is at most as deep as all items: `depthItems`. -/
theorem depth_le_depthItems {item : Datum} {items : List Datum} (h : item ∈ items) :
    item.depth ≤ depthItems items := by
  induction items with
  | nil => cases h
  | cons head rest ih =>
    rw [depthItems]
    cases h with
    | head => exact le_max_left _ _
    | tail _ h => exact (ih h).trans (le_max_right _ _)

/-- A value of a member is at most as deep as all members: `depthMembers`. -/
theorem depth_le_depthMembers {m : String × Datum} {members : List (String × Datum)}
    (h : m ∈ members) : m.2.depth ≤ depthMembers members := by
  induction members with
  | nil => cases h
  | cons head rest ih =>
    obtain ⟨key, value⟩ := head
    rw [depthMembers]
    cases h with
    | head => exact le_max_left _ _
    | tail _ h => exact (ih h).trans (le_max_right _ _)

/-- The `parts` of a datum have less `depth` than the datum. -/
theorem depth_lt_of_mem_parts {part d : Datum} (h : part ∈ d.parts) : part.depth < d.depth := by
  -- A container is one deeper than the deepest of its parts.
  cases d with
  | array items =>
    rw [depth]
    exact Nat.lt_succ_of_le (depth_le_depthItems h)
  | object members =>
    obtain ⟨m, hm, rfl⟩ := List.mem_map.mp h
    rw [depth]
    exact Nat.lt_succ_of_le (depth_le_depthMembers hm)
  | _ => cases h

/-- What `get?` finds is one of the `parts`. -/
theorem mem_parts_of_get? {d value : Datum} {key : String} (h : d.get? key = some value) :
    value ∈ d.parts := by
  cases d with
  | object members => exact List.mem_map_of_mem (Members.mem_of_get? h)
  | _ => cases h

/-- The items of an array that `get?` finds are two levels down. -/
theorem mem_parts_of_asArray? {d item : Datum} {key : String} {items : List Datum}
    (h : (d.get? key).bind asArray? = some items) (hitem : item ∈ items) :
    ∃ data ∈ d.parts, item ∈ data.parts := by
  obtain ⟨data, hdata, hitems⟩ := Option.bind_eq_some_iff.mp h
  cases data with
  | array items' =>
    obtain rfl := Option.some.inj hitems
    exact ⟨_, mem_parts_of_get? hdata, hitem⟩
  | _ => cases hitems

end Datum

end DocQuery
