import Lambdict.CommandLine.Options
import Lambdict.Outcome
import Lambdict.Text.Utf8

/-!
# Running a command

What a command does, given what surrounds it: the variables, the input and the files. The program
text is fetched first, then the settings are completed, then the program is run, or its desugared
form is printed. A value goes to the output; a failure goes to the error output with status one.
-/

namespace Lambdict.CommandLine

/-- Why a file could not be read. -/
inductive FileFault
  | missing | directory | notADirectory | nameTooLong | denied
deriving DecidableEq, Repr

/-- The fault of a file in words. -/
def FileFault.message (name : String) : FileFault → String
  | .missing => "FileNotFoundError: [Errno 2] No such file or directory: " ++ Text.quoted name
  | .directory => "IsADirectoryError: [Errno 21] Is a directory: " ++ Text.quoted name
  | .notADirectory => "NotADirectoryError: [Errno 20] Not a directory: " ++ Text.quoted name
  | .nameTooLong => "OSError: [Errno 36] File name too long: " ++ Text.quoted name
  | .denied => "PermissionError: [Errno 13] Permission denied: " ++ Text.quoted name

/-- What surrounds a command. -/
structure Surroundings where
  vars : Variables
  input : String
  read : String → Except FileFault (List UInt8)

/-- What a command leaves: its status and its two outputs. -/
structure Report where
  status : Nat
  out : String
  err : String
deriving DecidableEq, Repr

/-- How a command ends: with a report, refused for its arguments, or aborted. -/
inductive Ending
  | report (r : Report)
  | refused (why : Refusal)
  | aborted (why : Abort)
deriving DecidableEq, Repr

/-- A line of output. -/
def Ending.printed (text : String) : Ending :=
  .report ⟨0, text ++ "\n", ""⟩

/-- A line of error output. -/
def Ending.failed (text : String) : Ending :=
  .report ⟨1, "", "error: " ++ text ++ "\n"⟩

/-- The text of a source, or how the command ends because of its file. -/
def fetch (w : Surroundings) : Source → Except Ending String
  | .text s => .ok s
  | .input => .ok w.input
  | .file name =>
    if name.toList.contains '\x00' then .error (.aborted .nullInName)
    else
      match w.read name with
      | .error fault => .error (.failed (fault.message name))
      | .ok bytes =>
        match Text.Utf8.readText bytes with
        | .error fault => .error (.failed ("UnicodeDecodeError: " ++ fault.message))
        | .ok s => .ok s

/-- A text that may abort, printed. -/
def printText : Except Abort String → Ending
  | .ok s => .printed s
  | .error a => .aborted a

/-- Prints the desugared form of a program text. -/
def printDesugared (strategy : Strategy) (text : String) : Ending :=
  match parseProgram text with
  | .error (.condition c) => .failed (c.kind ++ ": " ++ c.message)
  | .error (.abort a) => .aborted a
  | .ok program => printText (renderProgram (Expr.desugarAll strategy program))

/-- Reports an outcome. -/
def reportOutcome : Except Abort Outcome → Ending
  | .error a => .aborted a
  | .ok (.ok v) => printText v.render
  | .ok failure => .failed failure.plain

/-- Runs a program text as the options say. -/
def execute (depth : Nat) (vars : Variables) (o : Options) (text : String) : Option Ending :=
  match Settings.complete vars (if o.desugar then some true else none) o.strategy with
  | .error a => some (.aborted a)
  | .ok settings =>
    if o.showDesugared then some (printDesugared settings.strategy text)
    else (runText depth settings text).map reportOutcome

/-- **Runs a command.** -/
def run (depth : Nat) (w : Surroundings) (argv : List String) : Option Ending :=
  match Options.parse argv with
  | .error why => some (.refused why)
  | .ok o =>
    match fetch w o.source with
    | .error ending => some ending
    | .ok text => execute depth w.vars o text

end Lambdict.CommandLine
