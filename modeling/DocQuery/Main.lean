import DocQuery.CommandLine.Run

/-!
# The program

Reads the arguments, the environment and the file with settings, runs the command, prints its text
and ends with its code.
-/

namespace DocQuery.CommandLine

/-- The variables that the program looks at, in either case for settings. -/
def variableNames : List String :=
  let settings := Setting.all.map fun setting => Settings.variablePrefix ++ setting.key
  settings ++ settings.map (fun name => name.map Char.toUpper)
    ++ ValueOption.all.map ValueOption.variableName

/-- The variables of the environment that are set. -/
def readVariables : IO (List (String × String)) := do
  let found ← variableNames.mapM fun name => do
    let value ← IO.getEnv name
    return value.map fun text => (name, text)
  return found.filterMap id

/-- The text of a file, where it can be read. -/
def readFile? (name : String) : IO (Option String) := do
  try
    let text ← IO.FS.readFile name
    return some text
  catch _ => return none

def runProgram (args : List String) : IO Outcome := do
  let env ← readVariables
  match readArguments env args with
  | .error stop => return stop.outcome
  | .ok invocation => do
    let file ← match invocation.file with
      | some name => readFile? name
      | none => pure none
    return invocation.run file env

end DocQuery.CommandLine

def main (args : List String) : IO UInt32 := do
  let outcome ← DocQuery.CommandLine.runProgram args
  IO.print outcome.output
  return outcome.code.toUInt32
