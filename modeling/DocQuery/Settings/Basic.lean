/-!
# Settings

Four settings say how values are written and whether the compiler may evaluate.
-/

namespace DocQuery

/-- How enumeration values are written. -/
inductive EnumEncoding where
  | numeric
  | name
deriving DecidableEq

structure Settings where
  enumEncoding : EnumEncoding := .numeric
  /-- Whether tuples may be written; they can always be read. -/
  tupleEncoding : Bool := false
  /-- Whether the compiler may evaluate what has no term of its own. -/
  clientEvaluation : Bool := true
  /-- Whether times keep whole milliseconds only. -/
  timeMillis : Bool := true
deriving DecidableEq

/-- The text of a setting that is on or off. -/
def Settings.flagText (flag : Bool) : String := if flag then "true" else "false"

end DocQuery
