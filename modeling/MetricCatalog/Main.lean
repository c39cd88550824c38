import MetricCatalog.Inspection.Run

/-!
# The inspection command

Reads its settings from the environment, runs an inspection on the disk and prints what the run leaves
behind.
-/

namespace MetricCatalog

/-- The system's number for an error. Some functions hand it on negated. -/
def systemCode (code : UInt32) : Nat := (if 0x80000000 ≤ code then -code else code).toNat

/-- Why the system did not read a file, by its number for the error. -/
def ReadFailure.ofCode (code : Nat) (text : String) : ReadFailure :=
  ([noSuchFile, permissionDenied, notADirectory, isADirectory, nameTooLong].find?
    fun f => f.code? == some code).getD (.system code text)

/-- Why the system did not read a file. -/
def ReadFailure.ofError : IO.Error → ReadFailure
  | .noFileOrDirectory _ code text => ofCode (systemCode code) text
  | .permissionDenied _ code text => ofCode (systemCode code) text
  | .inappropriateType _ code text => ofCode (systemCode code) text
  | .invalidArgument _ code text => ofCode (systemCode code) text
  | .otherError code text => ofCode (systemCode code) text
  | e => .system 5 (toString e)

/-- The bytes of a file on the disk. -/
def readFile (path : String) : IO (Except ReadFailure Bytes) := do
  try
    return .ok (← IO.FS.readBinFile path).toList
  catch e =>
    return .error (.ofError e)

/-- The variables that hold settings, as far as they are given. -/
def givenVariables : IO (List (String × String)) :=
  [Settings.pathVariable, Settings.kindVariable].filterMapM fun name => do
    return (← IO.getEnv name).map (name, ·)

/-- Runs one inspection. Its log shows errors. -/
def command : IO UInt32 := do
  let outcome ← run .errors readFile (Settings.ofVariables (← givenVariables))
  IO.eprint outcome.report
  IO.print outcome.output
  return outcome.exitCode

end MetricCatalog

def main : IO UInt32 := MetricCatalog.command
