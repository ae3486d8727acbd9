import Mathlib.Data.List.Forall2
import DocQuery.Schema.Ty

/-!
# Values of types

A value conforms to a type when it is of the kind that the type says, at every depth. Null conforms
to the types for which it means absence, and everything conforms to the dynamic type.
-/

namespace DocQuery

/-- The value is one of the type, at every depth, with one constructor for each kind of type. Null
    is one of every type with `isNullable`. -/
inductive Value.Conforms : Value → Ty → Prop where
  | null {t : Ty} (nullable : t.isNullable = true) : Conforms .null t
  | bool (b : Bool) : Conforms (.bool b) .bool
  | char (c : Char) : Conforms (.char c) .char
  | string (s : String) : Conforms (.string s) .string
  | int (kind : IntKind) (n : kind.Number) : Conforms (.int kind n) (.int kind)
  | f32 (x : Binary32) : Conforms (.f32 x) .f32
  | f64 (x : Binary64) : Conforms (.f64 x) .f64
  | uuid (id : Uuid) : Conforms (.uuid id) .uuid
  | url (u : Url) : Conforms (.url u) .url
  | binary (bytes : List UInt8) : Conforms (.binary bytes) .binary
  | instant (t : Instant) : Conforms (.instant t) .instant
  | zoned (t : Zoned) : Conforms (.zoned t) .zoned
  | span (d : Span) : Conforms (.span d) .span
  | enum (type : EnumType) (discriminant : Int) :
    Conforms (.enum type discriminant) (.enum type)
  | option {v : Value} {t : Ty} (inner : Conforms v t) : Conforms v (.option t)
  | list {items : List Value} {t : Ty} (elements : ∀ item ∈ items, Conforms item t) :
    Conforms (.list items) (.list t)
  | map {entries : List (String × Value)} {t : Ty}
    (values : ∀ entry ∈ entries, Conforms entry.2 t) : Conforms (.map entries) (.map t)
  | tuple {items : List Value} {ts : List Ty}
    (places : List.Forall₂ (fun t item => Conforms item t) ts items) :
    Conforms (.tuple items) (.tuple ts)
  | grouping {groups : List (Value × Value)} {k v : Ty}
    (keys : ∀ group ∈ groups, Conforms group.1 k)
    (values : ∀ group ∈ groups, Conforms group.2 v) :
    Conforms (.grouping groups) (.grouping k v)
  | record {r : RecordType} {values : List Value}
    (fields : List.Forall₂ (fun (field : Field) value => Conforms value field.type)
      r.fields values) : Conforms (.record r values) (.record r)
  | dynamic (v : Value) : Conforms v .dynamic

/-- `null` conforms to exactly the types with `isNullable`, for which it means absence. -/
theorem Value.conforms_null {t : Ty} : Value.null.Conforms t ↔ t.isNullable = true := by
  refine ⟨fun h => ?_, .null⟩
  cases h with
  | null nullable => exact nullable
  -- Options and dynamic types take null as they take any value.
  | option _ => rfl
  | dynamic => rfl

end DocQuery
