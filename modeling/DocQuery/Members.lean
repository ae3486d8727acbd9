/-!
# Ordered members

The members of an object, the options of a term and the bindings of a scope are lists of pairs whose
order is seen by others. Looking a name up finds its first member; setting a name keeps its place,
or puts it at the end where it is new.
-/

namespace DocQuery.Members

variable {κ α : Type} [DecidableEq κ]

/-- The first member with the given name. -/
def get? (name : κ) : List (κ × α) → Option α
  | [] => none
  | (k, v) :: rest => if k = name then some v else get? name rest

/-- Sets the value of a name. -/
def set (name : κ) (value : α) : List (κ × α) → List (κ × α)
  | [] => [(name, value)]
  | (k, v) :: rest => if k = name then (k, value) :: rest else (k, v) :: set name value rest

/-- The members with other names. -/
def erase (name : κ) (members : List (κ × α)) : List (κ × α) :=
  members.filter fun (k, _) => k ≠ name

/-- The members with distinct names: a name keeps its first place and takes its last value. -/
def ofList (members : List (κ × α)) : List (κ × α) :=
  members.foldl (fun done (name, value) => set name value done) []

end DocQuery.Members
