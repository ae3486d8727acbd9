import DocQuery.Schema.Basic

/-!
# Sizes of types

The size of a type counts its constructors, those of record fields included. Every component of a
type is smaller than the type, which bounds how far building a converter from the converters of
components can go.
-/

namespace DocQuery

namespace Ty

mutual

/-- How many constructors a type consists of, the fields of records included. -/
def size : Ty → Nat
  | option inner => size inner + 1
  | list element => size element + 1
  | map value => size value + 1
  | tuple items => sizeItems items + 1
  | grouping key value => size key + size value + 1
  | record type => sizeRecord type + 1
  | _ => 1

def sizeItems : List Ty → Nat
  | [] => 0
  | item :: rest => size item + sizeItems rest

def sizeRecord : RecordType → Nat
  | ⟨_, _, fields⟩ => sizeFields fields

def sizeFields : List Field → Nat
  | [] => 0
  | field :: rest => sizeField field + sizeFields rest

def sizeField : Field → Nat
  | ⟨_, _, type, _, _⟩ => size type

end

/-- An item is no larger than all items together. -/
theorem size_le_sizeItems {item : Ty} {items : List Ty} (h : item ∈ items) :
    item.size ≤ sizeItems items := by
  induction items with
  | nil => cases h
  | cons head rest ih =>
    rw [sizeItems]
    cases h with
    | head => exact Nat.le_add_right ..
    | tail _ h => exact Nat.le_trans (ih h) (Nat.le_add_left ..)

theorem sizeField_eq (field : Field) : sizeField field = field.type.size := by
  cases field
  rw [sizeField]

/-- The type of a field is no larger than the types of all fields together. -/
theorem size_le_sizeFields {field : Field} {fields : List Field} (h : field ∈ fields) :
    field.type.size ≤ sizeFields fields := by
  induction fields with
  | nil => cases h
  | cons head rest ih =>
    rw [sizeFields]
    cases h with
    | head =>
      rw [sizeField_eq]
      exact Nat.le_add_right ..
    | tail _ h => exact Nat.le_trans (ih h) (Nat.le_add_left ..)

/-- An item of a tuple type is smaller than the type. -/
theorem size_lt_of_mem_tuple {item : Ty} {items : List Ty} (h : item ∈ items) :
    item.size < (tuple items).size := by
  rw [size]
  exact Nat.lt_succ_of_le (size_le_sizeItems h)

/-- The type of a record's field is smaller than the record type. -/
theorem size_lt_of_mem_record {r : RecordType} {field : Field} (h : field ∈ r.fields) :
    field.type.size < (record r).size := by
  obtain ⟨name, kind, fields⟩ := r
  rw [size, sizeRecord]
  exact Nat.lt_succ_of_le (size_le_sizeFields h)

end Ty

end DocQuery
