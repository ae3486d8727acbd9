import DocQuery.Codec.Time

/-!
# Inferred types of documents

Where nothing else is known, a document has the type of its shape. Safe whole numbers are `i64`, all
other numbers `f64`; an array has the common type of its items; an object has the type of its tag,
or is a map of dynamic values. Nulls in an array make its items optional.
-/

namespace DocQuery

namespace Ty

/-- The common type of two item types, where there is one: a dynamic item agrees with every other,
`i64` widens to `f64`, and an option agrees with what it holds. -/
def unify (a b : Ty) : Option Ty :=
  if a == b then some a
  else match a, b with
    | dynamic, other => some other
    | other, dynamic => some other
    | int .i64, f64 => some f64
    | f64, int .i64 => some f64
    | list x, list y => (unify x y).map list
    | option x, option y => (unify x y).map option
    | option x, other => (unify x other).map option
    | other, option x => (unify x other).map option
    | _, _ => none
termination_by sizeOf a + sizeOf b
decreasing_by all_goals (simp_wf <;> omega)

end Ty

namespace Datum

/-- The item type of an array, given the common type of its items that are not null. -/
def itemType (sawNull : Bool) : Option Ty → Ty
  | none => if sawNull then .option .dynamic else .dynamic
  | some type => if sawNull && !type.isNullable then .option type else type

mutual

/-- The type of a document when nothing else is known of it. -/
def inferType (d : Datum) : Except Error Ty :=
  match d with
  | null => .ok .dynamic
  | bool _ => .ok .bool
  | number x => .ok (if (safeInteger? x).isSome then .int .i64 else .f64)
  | string _ => .ok .string
  | array items => inferItems false none items
  | object members =>
    match (object members).tag? with
    | some tag =>
      if tag = timeTag then .ok .zoned
      else if tag = binaryTag then .ok .binary
      else if tag = groupedTag then .ok (.grouping .dynamic .dynamic)
      else .error (.unrecognizedTag tag)
    | none => .ok (.map .dynamic)

/-- The type of an array, given whether a null was met and the common type of the items so far. -/
def inferItems (sawNull : Bool) (common : Option Ty) : List Datum → Except Error Ty
  | [] => .ok (.list (itemType sawNull common))
  | item :: rest =>
    -- A null has no type of its own and only makes the others optional.
    if item.isNull then inferItems true common rest
    else do
      let type ← inferType item
      match common with
      | none => inferItems sawNull (some type) rest
      | some current =>
        match current.unify type with
        | some common => inferItems sawNull (some common) rest
        | none => .error (.heterogeneousArray (current.text ++ " and " ++ type.text))

end

end Datum

end DocQuery
