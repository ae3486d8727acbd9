import DocQuery.Toml.Atom

/-!
# Dates in the form of tables

Where the values of a document are read without knowing their sorts, a table stands for a date if
its first member has a certain name. That member has to be the text of a date or time; the others do
not count. The texts follow the rules of dates in documents, except that a day also has an hour 24
and that an offset is bounded as a whole.
-/

namespace DocQuery.Toml

/-- The name of the first member of a table that stands for a date. -/
def dateName : String := "$__toml_private_datetime"

/-- The text of a date with or without a time, or of a time. -/
def isDateText (text : String) : Bool :=
  let cs := text.toList
  let isClock := isTimeOfDate 24 fun hours minutes => hours * 60 + minutes ≤ 24 * 60
  isTime 24 List.isEmpty cs || isDate (cs.take 10) &&
    match cs.drop 10 with
    | [] => true
    | mark :: rest => (mark == 'T' || mark == 't' || mark == ' ') && isClock rest

def isDateValue : Toml → Bool
  | .string text => isDateText text
  | _ => false

/-- A date in the place of a table that stands for one. -/
def asDate : Toml → Toml
  | .table form ((name, .string text) :: rest) =>
    if name = dateName then .time text else .table form ((name, .string text) :: rest)
  | other => other

mutual

/-- Whether all tables that stand for dates hold dates. -/
def holdsDates : Toml → Bool
  | .array items => holdsDatesItems items
  | .table _ members => holdsDatesTable members
  | .tables earlier last => holdsDatesTables earlier && holdsDatesTable last
  | _ => true

def holdsDatesItems : List Toml → Bool
  | [] => true
  | item :: rest => holdsDates item && holdsDatesItems rest

def holdsDatesTables : List Table → Bool
  | [] => true
  | members :: rest => holdsDatesTable members && holdsDatesTables rest

def holdsDatesTable : Table → Bool
  | [] => true
  | (name, value) :: rest =>
    if name = dateName then isDateValue value else holdsDates value && holdsDatesMembers rest

/-- The members after the first one. -/
def holdsDatesMembers : Table → Bool
  | [] => true
  | (_, value) :: rest => holdsDates value && holdsDatesMembers rest

end

end DocQuery.Toml
