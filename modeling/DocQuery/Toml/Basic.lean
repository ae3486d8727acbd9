import DocQuery.Members
import DocQuery.Number.Binary

/-!
# TOML documents

A document is a table, built line by line. Every table remembers how it came about, because that
decides what may still be added: a table in braces is complete, one with a header of its own takes
no second header and no dotted keys from elsewhere, and one that was only passed on the way to
another may still get its header.
-/

namespace DocQuery

/-- How a table came about. -/
inductive TableForm where
  /-- Written in braces. -/
  | braces
  /-- Opened by its own header. -/
  | header
  /-- Named only inside the header of another table. -/
  | passed
  /-- Named in front of the last dot of a key. -/
  | dotted
deriving DecidableEq

inductive Toml where
  | string (value : String)
  | integer (value : Int)
  | float (value : Binary64)
  | boolean (value : Bool)
  /-- A date, a time of day, or both. -/
  | time (text : String)
  | array (items : List Toml)
  | table (form : TableForm) (members : List (String × Toml))
  /-- Tables that were opened one after the other under one name; only the last can grow. -/
  | tables (earlier : List (List (String × Toml))) (last : List (String × Toml))

namespace Toml

instance : Inhabited Toml := ⟨boolean false⟩

abbrev Table := List (String × Toml)

/-- Adds a member whose name is new. -/
def add (name : String) (value : Toml) (t : Table) : Option Table :=
  if (Members.get? name t).isSome then none else some (t ++ [(name, value)])

/-- Adds a value under a key whose parts in front of the last dot are `path`. -/
def define (key : String) (value : Toml) : (path : List String) → Table → Option Table
  | [], t => add key value t
  | name :: path, t =>
    match Members.get? name t with
    | none => do
      let inner ← define key value path []
      return Members.set name (.table .dotted inner) t
    | some (.table .dotted inner) => do
      let inner ← define key value path inner
      return Members.set name (.table .dotted inner) t
    -- A dotted key may go through these two, but the table it ends in has to be its own.
    | some (.table .passed inner) =>
      if path = [] then none
      else do
        let inner ← define key value path inner
        return Members.set name (.table .passed inner) t
    | some (.tables earlier last) =>
      if path = [] then none
      else do
        let last ← define key value path last
        return Members.set name (.tables earlier last) t
    | some _ => none

/-- Changes the table that a header path leads to. -/
def within (change : Table → Option Table) : (path : List String) → Table → Option Table
  | [], t => change t
  | name :: path, t =>
    match Members.get? name t with
    | none => do
      let inner ← within change path []
      return Members.set name (.table .passed inner) t
    | some (.table form inner) =>
      if form = .braces then none
      else do
        let inner ← within change path inner
        return Members.set name (.table form inner) t
    | some (.tables earlier last) => do
      let last ← within change path last
      return Members.set name (.tables earlier last) t
    | some _ => none

/-- Opens a table by its header. A table that was passed before comes last from then on. -/
def openTable (name : String) (t : Table) : Option Table :=
  match Members.get? name t with
  | none => some (t ++ [(name, .table .header [])])
  | some (.table .passed inner) => some (Members.erase name t ++ [(name, .table .header inner)])
  | some _ => none

/-- Opens one more of the tables under a name. -/
def openNext (name : String) (t : Table) : Option Table :=
  match Members.get? name t with
  | none => some (t ++ [(name, .tables [] [])])
  | some (.tables earlier last) =>
    some (Members.set name (.tables (earlier ++ [last]) []) t)
  | some _ => none

end Toml

end DocQuery
