import DocQuery.Term.Basic

/-!
# Texts of terms

The compact text is one line; a term with a datum is shown as the datum. The pretty text gives every
argument and every option a line of its own.
-/

namespace DocQuery.Term

mutual

/-- One line, such as `GT(GET_FIELD(VAR(1), "age"), 18)`. -/
def compact : Term → String
  | mk _ _ _ (some datum) => datum.display
  | mk kind args options none =>
    let parts := compactArgs args ++ compactOptions options
    kind.name ++ "(" ++ ", ".intercalate parts ++ ")"

def compactArgs : List Term → List String
  | [] => []
  | arg :: rest => compact arg :: compactArgs rest

def compactOptions : List (String × Term) → List String
  | [] => []
  | (name, value) :: rest => (name ++ "=" ++ compact value) :: compactOptions rest

end

/-- The blanks in front of a line. -/
def margin (indent : Nat) : String := String.ofList (List.replicate (2 * indent) ' ')

mutual

/-- The lines of a term, without the margin of the first one. -/
def prettyBody (indent : Nat) : Term → String
  | mk kind args options datum =>
    kind.name ++ "(" ++ (datum.map Datum.display).getD ""
      ++ (if args.isEmpty then "" else "\n" ++ prettyArgs (indent + 1) args ++ margin indent)
      ++ (if options.isEmpty then ""
          else " \x7b" ++ prettyOptions indent options ++ "\n" ++ margin indent ++ "\x7d")
      ++ ")"

def prettyArgs (indent : Nat) : List Term → String
  | [] => ""
  | [arg] => margin indent ++ prettyBody indent arg ++ "\n"
  | arg :: rest => margin indent ++ prettyBody indent arg ++ ",\n" ++ prettyArgs indent rest

/-- An option starts one step deeper than its term, and what it holds goes on two steps deeper. -/
def prettyOptions (indent : Nat) : List (String × Term) → String
  | [] => ""
  | (name, value) :: rest =>
    "\n" ++ margin (indent + 1) ++ name ++ ": " ++ prettyBody (indent + 2) value
      ++ prettyOptions indent rest

end

/-- The tree, one argument or option a line. -/
def pretty (indent : Nat) (t : Term) : String := margin indent ++ prettyBody indent t

end DocQuery.Term
