import Lambdict.CommandLine.Run

/-!
# The command

Reads what the options name, runs the program, and writes its report. All that is decided is decided
by `CommandLine.Options.parse` and `CommandLine.run`; here only files, input and variables are
fetched.
-/

namespace Lambdict.CommandLine

/-- How deep closure calls may nest in a command. -/
def callDepth : Nat := 1000000000000

/-- The bytes of a file, or why it cannot be read. -/
def readBytes (name : String) : IO (Except FileFault (List UInt8)) := do
  try
    let bytes ← IO.FS.readBinFile name
    return .ok bytes.toList
  catch e =>
    match e with
    | .noFileOrDirectory .. => return .error .missing
    | .permissionDenied .. => return .error .denied
    | .invalidArgument _ 36 _ => return .error .nameTooLong
    | .inappropriateType _ code _ =>
      return .error (if code = 20 then .notADirectory else .directory)
    | e => throw e

/-- What surrounds a command that takes its program from a source. -/
def surroundings (source : Source) : IO Surroundings := do
  let desugar ← IO.getEnv Settings.desugarVariable
  let strategy ← IO.getEnv Settings.strategyVariable
  let vars : Variables := fun name =>
    if name = Settings.desugarVariable then desugar
    else if name = Settings.strategyVariable then strategy
    else none
  match source with
  | .text _ => return ⟨vars, "", fun _ => .error .missing⟩
  | .input => return ⟨vars, ← (← IO.getStdin).readToEnd, fun _ => .error .missing⟩
  | .file name =>
    let bytes ← readBytes name
    return ⟨vars, "", fun _ => bytes⟩

/-- Writes how a command ended and gives its exit status. -/
def conclude : Option Ending → IO UInt32
  | some (.report r) => do
    IO.print r.out
    IO.eprint r.err
    return r.status.toUInt32
  | some (.refused why) => do
    IO.eprintln "usage: [-e EXPR] [--desugar] [--strategy NAME] [--show-desugared] [FILE]"
    return why.status.toUInt32
  | some (.aborted why) => do
    IO.eprintln why.message
    return 1
  | none => do
    IO.eprintln "closure calls are nested too deep"
    return 1

end Lambdict.CommandLine

open Lambdict CommandLine in
/-- The command: runs a program text, a file or the input. -/
def main (argv : List String) : IO UInt32 := do
  match Options.parse argv with
  | .error why => conclude (some (.refused why))
  | .ok options =>
    let w ← surroundings options.source
    conclude (run callDepth w argv)
