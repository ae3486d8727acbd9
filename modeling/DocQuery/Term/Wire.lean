import DocQuery.Error
import DocQuery.Term.Basic

/-!
# The wire form of terms

A term goes over the wire as `[id, [args...], {options...}]`, the options only where there are any.
A literal goes as its datum, except that an array inside it would read back as a term and therefore
goes as `[2, [items...]]`. Reading accepts more than writing produces: short arrays, literals given
as `[1, datum]`, and objects whose members are terms. An array of literals and an object of literals
are read as one literal.
-/

namespace DocQuery

namespace Datum

mutual

/-- The wire form of a literal. -/
def toWire : Datum → Except Error Json
  | array items => do
    let items ← toWireItems items
    return .array [.integer TermKind.makeArray.id, .array items]
  | object members => do
    let members ← toWireMembers [] members
    return .object members
  | number value =>
    if value.isFinite then .ok (number value).toJson else .error (.wire (.notFinite value))
  | other => .ok other.toJson

def toWireItems : List Datum → Except Error (List Json)
  | [] => .ok []
  | item :: rest => do
    let item ← toWire item
    let rest ← toWireItems rest
    return item :: rest

def toWireMembers (done : List (String × Json)) :
    List (String × Datum) → Except Error (List (String × Json))
  | [] => .ok done
  | (key, value) :: rest => do
    let value ← toWire value
    toWireMembers (Members.set key value done) rest

end

end Datum

namespace Term

mutual

/-- The wire form. It fails for a literal without a datum and for numbers that are not finite. -/
def toWire : Term → Except Error Json
  | mk kind args options datum =>
    if kind = .datum then
      match datum with
      | some datum => datum.toWire
      | none => .error (.wire .missingDatum)
    else do
      let args ← toWireArgs args
      match options with
      | [] => return .array [.integer kind.id, .array args]
      | options =>
        let options ← toWireOptions [] options
        return .array [.integer kind.id, .array args, .object options]

def toWireArgs : List Term → Except Error (List Json)
  | [] => .ok []
  | arg :: rest => do
    let arg ← toWire arg
    let rest ← toWireArgs rest
    return arg :: rest

def toWireOptions (done : List (String × Json)) :
    List (String × Term) → Except Error (List (String × Json))
  | [] => .ok done
  | (name, value) :: rest => do
    let value ← toWire value
    toWireOptions (Members.set name value done) rest

end

/-- The datums of terms that are all literals with a datum. -/
def literals? : List Term → Option (List Datum)
  | [] => some []
  | t :: rest =>
    if t.isDatum then do
      let datum ← t.datum
      let rest ← literals? rest
      return datum :: rest
    else none

/-- A term from its parts; an array of literals becomes a literal. -/
def collapse (kind : TermKind) (args : List Term) (options : List (String × Term)) : Term :=
  if kind = .makeArray then
    match literals? args with
    | some items => literal (.array items)
    | none => mk kind args (Members.ofList options) none
  else mk kind args (Members.ofList options) none

/-- The object of the given members; an object of literals becomes a literal. -/
def ofMembers (members : List (String × Term)) : Term :=
  match literals? (members.map Prod.snd) with
  | some values => literal (.object ((members.map Prod.fst).zip values))
  | none => makeObject members

/-- The kind that the first item of a term's array stands for. -/
def kindOf (first : Json) : Except Error TermKind :=
  match first with
  | .integer (.ofNat id) =>
    match TermKind.ofId? id with
    | some kind => .ok kind
    | none => .error (.wire (.unknownTermId id))
  | other => .error (.wire (.termIdExpected other.write))

/-- The literal of the items that follow the kind of literals. Further items do not count. -/
def literalOf : List Json → Except Error Term
  | [] => .error (.wire .datumArgumentMissing)
  | value :: _ => .ok (literal (Datum.ofJson value))

mutual

/-- Reads the wire form. -/
def ofWire : Json → Except Error Term
  | .array [] => .error (.wire .emptyArray)
  | .array (first :: parts) => do
    let kind ← kindOf first
    if kind = .datum then literalOf parts else ofWireParts kind parts
  | .object members => do
    let members ← ofWireMembers members
    return ofMembers members
  | scalar => .ok (literal (Datum.ofJson scalar))

/-- Reads the arguments and the options that follow a kind. -/
def ofWireParts (kind : TermKind) : List Json → Except Error Term
  | [] => .ok (collapse kind [] [])
  | [.array args] => do
    let args ← ofWireArgs args
    return collapse kind args []
  | .array args :: .object options :: _ => do
    let args ← ofWireArgs args
    let options ← ofWireMembers options
    return collapse kind args options
  | .array args :: _ => do
    -- The arguments are read first, so their error comes before that of the options.
    let _ ← ofWireArgs args
    .error (.wire (.optionsNotObject kind.name))
  | _ => .error (.wire (.argumentsNotArray kind.name))

def ofWireArgs : List Json → Except Error (List Term)
  | [] => .ok []
  | arg :: rest => do
    let arg ← ofWire arg
    let rest ← ofWireArgs rest
    return arg :: rest

def ofWireMembers : List (String × Json) → Except Error (List (String × Term))
  | [] => .ok []
  | (name, value) :: rest => do
    let value ← ofWire value
    let rest ← ofWireMembers rest
    return (name, value) :: rest

end

/-- The number of a kind stands for the kind. -/
theorem kindOf_id (kind : TermKind) : kindOf (.integer kind.id) = .ok kind := by
  cases kind <;> rfl

/-- Reading a term that is no literal and has no options. -/
theorem ofWire_node {kind : TermKind} (h : kind ≠ .datum) (args : List Json) :
    ofWire (.array [.integer kind.id, .array args]) = do
      let args ← ofWireArgs args
      return collapse kind args [] := by
  rw [ofWire, kindOf_id]
  show (if kind = .datum then _ else _) = _
  rw [if_neg h, ofWireParts]

/-- Reading a term that is no literal and has options. -/
theorem ofWire_node_options {kind : TermKind} (h : kind ≠ .datum) (args : List Json)
    (options : List (String × Json)) :
    ofWire (.array [.integer kind.id, .array args, .object options]) = do
      let args ← ofWireArgs args
      let options ← ofWireMembers options
      return collapse kind args options := by
  rw [ofWire, kindOf_id]
  show (if kind = .datum then _ else _) = _
  rw [if_neg h, ofWireParts]

end Term

end DocQuery
