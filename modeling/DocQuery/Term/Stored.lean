import DocQuery.Json.Reader
import DocQuery.Term.Basic

/-!
# The stored form of terms

Beside the wire form a term has a form that shows all of its four parts:
`{"term_type": name, "args": [...], "optargs": [[name, term]...], "datum": datum}`, with null where
there is no datum. Reading passes over members of other names, takes a missing datum for none,
refuses a part that comes up twice, and also accepts the four parts in an array.
-/

namespace DocQuery.Term

/-- The parts of a term read so far. -/
structure StoredParts where
  kind : Option TermKind
  args : Option (List Term)
  options : Option (List (String × Term))
  datum : Option (Option Datum)

namespace StoredParts

def empty : StoredParts := ⟨none, none, none, none⟩

/-- The term, where no part is missing that has to be there. -/
def toTerm? (parts : StoredParts) : Option Term := do
  let kind ← parts.kind
  let args ← parts.args
  let options ← parts.options
  return Term.mk kind args options (parts.datum.getD none)

end StoredParts

/-- A kind is given by its short name, or by an object with that name and null. -/
def storedKind? : Json → Option TermKind
  | .string name => TermKind.ofShortName? name
  | .object [(name, .null)] => TermKind.ofShortName? name
  | _ => none

/-- Null stands for no datum. -/
def storedDatum : Json → Option Datum
  | .null => none
  | value => some (Datum.ofJson value)

mutual

def ofStored? : Json → Option Term
  | .object members => (storedParts? .empty members).bind StoredParts.toTerm?
  | .array [kind, .array args, .array options, datum] => do
    let kind ← storedKind? kind
    let args ← storedArgs? args
    let options ← storedOptions? options
    return mk kind args options (storedDatum datum)
  | _ => none

def storedParts? (parts : StoredParts) : List (String × Json) → Option StoredParts
  | [] => some parts
  | ("term_type", value) :: rest =>
    if parts.kind.isSome then none
    else (storedKind? value).bind fun kind => storedParts? { parts with kind := some kind } rest
  | ("args", .array items) :: rest =>
    if parts.args.isSome then none
    else (storedArgs? items).bind fun args => storedParts? { parts with args := some args } rest
  | ("optargs", .array items) :: rest =>
    if parts.options.isSome then none
    else (storedOptions? items).bind fun options =>
      storedParts? { parts with options := some options } rest
  | ("datum", value) :: rest =>
    if parts.datum.isSome then none
    else storedParts? { parts with datum := some (storedDatum value) } rest
  | (name, _) :: rest =>
    if name = "args" ∨ name = "optargs" then none else storedParts? parts rest

def storedArgs? : List Json → Option (List Term)
  | [] => some []
  | item :: rest => do
    let arg ← ofStored? item
    let args ← storedArgs? rest
    return arg :: args

def storedOptions? : List Json → Option (List (String × Term))
  | [] => some []
  | .array [.string name, value] :: rest => do
    let value ← ofStored? value
    let options ← storedOptions? rest
    return (name, value) :: options
  | _ :: _ => none

end

/-! ## Texts -/

/-- What a value in a stored term is. -/
inductive StoredPlace where
  | term
  | args
  | options
  | option
  /-- The name of a kind, the name of an option, or a datum. -/
  | plain

namespace StoredPlace

/-- What the item of an array is, which comes after `index` others. -/
def item (index : Nat) : StoredPlace → StoredPlace
  | term => if index = 1 then args else if index = 2 then options else plain
  | args => term
  | options => option
  | option => if index = 0 then plain else term
  | plain => plain

/-- What the member of an object is. Members of terms with other names are nothing. -/
def member? (key : String) : StoredPlace → Option StoredPlace
  | term =>
    if key = "args" then some args
    else if key = "optargs" then some options
    else if key = "term_type" ∨ key = "datum" then some plain
    else none
  | _ => some plain

/-- What a value is, by the arrays and objects around it, the innermost first. -/
def within? : List Json.Frame → Option StoredPlace
  | [] => some term
  | .array before :: outer => (within? outer).map (item before.length)
  | .object _ key :: outer => (within? outer).bind (member? key)

end StoredPlace

/-- The term of a text in stored form. -/
def ofStoredText? (text : String) : Option Term :=
  (Json.readPassing? (fun frames => (StoredPlace.within? frames).isNone) text).bind ofStored?

mutual

/-- The stored form. -/
def toStored : Term → Json
  | mk kind args options datum =>
    .object [("term_type", .string kind.shortName), ("args", .array (toStoredArgs args)),
      ("optargs", .array (toStoredOptions options)),
      ("datum", (datum.map Datum.toJson).getD .null)]

def toStoredArgs : List Term → List Json
  | [] => []
  | arg :: rest => toStored arg :: toStoredArgs rest

def toStoredOptions : List (String × Term) → List Json
  | [] => []
  | (name, value) :: rest => .array [.string name, toStored value] :: toStoredOptions rest

end

end DocQuery.Term
