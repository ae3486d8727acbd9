import DocQuery.Codec.Engine
import DocQuery.Codec.Infer
import DocQuery.CommandLine.Arguments
import DocQuery.Settings.Layers
import DocQuery.Term.Text
import DocQuery.Term.Wire

/-!
# Running commands

A command gives a text or fails. Where the arguments are wrong the exit code is 2, where the command
fails it is 1, and in both cases nothing is printed.
-/

namespace DocQuery.CommandLine

structure Outcome where
  code : Nat
  output : String
deriving DecidableEq

/-- The names of the log levels, which go by numbers from 1 too. -/
def levels : List String := ["error", "warn", "info", "debug", "trace"]

/-- The number of a text with an optional plus sign. -/
def levelNumber? (text : String) : Option Nat :=
  let digits := match text.toList with
    | '+' :: rest => rest
    | cs => cs
  if digits = [] ∨ !digits.all Char.isDigit then none else some (Decimal.digitsValue digits)

def isLevel (text : String) : Bool :=
  match levelNumber? text with
  | some n => 1 ≤ n && n ≤ levels.length
  | none => levels.contains (Settings.lower text)

/-- Reads a datum, infers its type, decodes and encodes it again. -/
def canonical (settings : Settings) (datum : Datum) : Except Error Datum :=
  let engine := Engine.ofSettings settings
  Session.answer do
    let value ← engine.decode .dynamic datum
    engine.encode .dynamic value

/-- The text of a command, where it does not fail. -/
def Invocation.output? (i : Invocation) (settings : Settings) : Option String :=
  match i.command with
  | .infer => do
    let datum ← Datum.read? i.operand
    let type ← datum.inferType.toOption
    return type.text ++ "\n"
  | .canonicalize => do
    let datum ← Datum.read? i.operand
    let datum ← (canonical settings datum).toOption
    return datum.write ++ "\n"
  | .wire => do
    let json ← Json.read? i.operand
    let term ← (Term.ofWire json.mergeKeys).toOption
    return term.pretty 0 ++ "\n"
  | .config => some settings.toText

/-- Runs a command, given the text of its file with settings. -/
def Invocation.run (i : Invocation) (file : Option String) (env : List (String × String)) :
    Outcome :=
  if !isLevel i.logLevel then ⟨1, ""⟩
  else
    match Settings.load file env with
    | .error _ => ⟨1, ""⟩
    | .ok settings =>
      match i.output? settings with
      | some text => ⟨0, text⟩
      | none => ⟨1, ""⟩

namespace Stop

/-- The outcome where no command is run. -/
def outcome : Stop → Outcome
  | misuse => ⟨2, ""⟩
  | page text => ⟨0, text⟩

end Stop

end DocQuery.CommandLine
