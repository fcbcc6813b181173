import Lambdict.Strategy
import Lambdict.Text.Digit

/-!
# Command-line options

How the arguments of a command are understood. An option is written in full, or by the beginning of
its long name as long as only one option begins so; its value follows as the next argument, or after
an equals sign, or directly after a one-letter name. Everything else is the name of the program
file, of which there is at most one. After `--` every argument is such a name.

A value that stands in the same argument as its option and is `--` counts as no value: a program
text is then empty, and a strategy is left open.

An argument that begins with a dash is nevertheless no option if it is a dash alone, or looks like a
negative number, or has a space in it, and is no option's name.
-/

namespace Lambdict.CommandLine

/-- The options. -/
inductive Flag
  | help | expr | desugar | strategy | showDesugared
deriving DecidableEq, Repr

/-- The names of the options. -/
def flagNames : List (String × Flag) :=
  [("-h", .help), ("--help", .help), ("-e", .expr), ("--expr", .expr), ("--desugar", .desugar),
   ("--strategy", .strategy), ("--show-desugared", .showDesugared)]

/-- Whether an option has a value. -/
def Flag.hasValue : Flag → Bool
  | .expr | .strategy => true
  | .help | .desugar | .showDesugared => false

/-- How a value is attached to the name of an option in the same argument: not at all, to a long
name by an equals sign, or to a one-letter name with or without one. -/
inductive Attached
  | nothing
  | long (value : String)
  | short (value : String)
deriving DecidableEq, Repr

/-- A value attached by an equals sign to a name in full. -/
def Attached.byEquals (name value : List Char) : Attached :=
  match name with
  | '-' :: '-' :: _ => .long (String.ofList value)
  | _ => .short (String.ofList value)

/-- An argument by what it is: a plain one, the mark `--`, an option, or something that only looks
like an option. -/
inductive Arg
  | plain (s : String)
  | mark
  | option (flag : Flag) (attached : Attached)
  | unknown
deriving DecidableEq, Repr

/-- What stands before and after the first equals sign. -/
def splitEquals (cs : List Char) : Option (List Char × List Char) :=
  match cs.dropWhile (· ≠ '=') with
  | [] => none
  | _ :: after => some (cs.takeWhile (· ≠ '='), after)

/-- Whether a text looks like a negative number: a dash, digits, and perhaps a point with digits
after it. One newline at the end does not count. -/
def isNegativeNumber (cs : List Char) : Bool :=
  let cs := if cs.getLast? = some '\n' then cs.dropLast else cs
  match cs with
  | '-' :: rest =>
    let whole := rest.takeWhile Text.isDigit
    match rest.dropWhile Text.isDigit with
    | [] => !whole.isEmpty
    | '.' :: fraction => !fraction.isEmpty && fraction.all Text.isDigit
    | _ => false
  | _ => false

/-- The option of a name. -/
def flagOf? (name : List Char) : Option Flag :=
  flagNames.lookup (String.ofList name)

/-- The options whose names begin with a text. -/
def flagsBeginning (start : List Char) : List Flag :=
  (flagNames.filter fun f => start.isPrefixOf f.1.toList).map Prod.snd

/-- A text that is no option after all. -/
def nonOption (cs : List Char) : Arg :=
  if isNegativeNumber cs || cs.contains ' ' then .plain (String.ofList cs) else .unknown

/-- What a text with a long name may be, `none` when it begins several options. -/
def classifyLong (cs : List Char) : Option Arg :=
  let (name, attached) :=
    match splitEquals cs with
    | some (name, value) => (name, Attached.long (String.ofList value))
    | none => (cs, Attached.nothing)
  match flagsBeginning name with
  | [] => some (nonOption cs)
  | [flag] => some (.option flag attached)
  | _ => none

/-- What an argument is, `none` when it begins several options. -/
def classify (s : String) : Option Arg :=
  match s.toList with
  | '-' :: c :: cs =>
    match flagOf? ('-' :: c :: cs), splitEquals ('-' :: c :: cs) with
    | some flag, _ => some (.option flag .nothing)
    | none, split =>
      match split.bind fun (name, value) => (flagOf? name).map fun f => (f, name, value) with
      | some (flag, name, value) => some (.option flag (.byEquals name value))
      | none =>
        if c = '-' then classifyLong ('-' :: c :: cs)
        else
          match flagOf? ['-', c] with
          | some flag => some (.option flag (.short (String.ofList cs)))
          | none => some (nonOption ('-' :: c :: cs))
  | _ => some (.plain s)

/-- What the arguments are; after the mark all are plain. -/
def classifyAll : List String → Option (List Arg)
  | [] => some []
  | s :: rest =>
    if s = "--" then some (.mark :: rest.map .plain)
    else do
      let a ← classify s
      let as ← classifyAll rest
      return a :: as

/-- What a command line asks for. -/
structure Options where
  file : Option String := none
  expr : Option String := none
  desugar : Bool := false
  strategy : Option Strategy := none
  showDesugared : Bool := false
deriving DecidableEq, Repr, Inhabited

/-- Why there are no options: the command line is wrong, or it asks for help. -/
inductive Refusal
  | usage | help
deriving DecidableEq, Repr

/-- The exit status of a refusal. -/
def Refusal.status : Refusal → Nat
  | .usage => 2
  | .help => 0

/-- The options with the value of one more set. -/
def Options.set (o : Options) (flag : Flag) (value : String) : Except Refusal Options :=
  match flag with
  | .expr => .ok { o with expr := some value }
  | .strategy =>
    match Strategy.ofName? value with
    | some s => .ok { o with strategy := some s }
    | none => .error .usage
  | _ => .error .usage

/-- The options after an option whose value is none. -/
def Options.setNone (o : Options) : Flag → Except Refusal Options
  | .expr => .ok { o with expr := some "" }
  | .strategy => .ok { o with strategy := none }
  | _ => .error .usage

/-- The options with a value set that was attached to its option. -/
def Options.setAttached (o : Options) (flag : Flag) (value : String) : Except Refusal Options :=
  if value = "--" then o.setNone flag else o.set flag value

/-- The options with one more switched on. -/
def Options.switchOn (o : Options) : Flag → Except Refusal Options
  | .desugar => .ok { o with desugar := true }
  | .showDesugared => .ok { o with showDesugared := true }
  | .help => .error .help
  | .expr | .strategy => .error .usage

/-- What stands behind the letter of the help option in one argument: more letters of options, the
last of which may have its value there or as the next argument. Help is given if all letters are
known and no value is missing. -/
def helpBundle (valueFollows : Bool) : List Char → Refusal
  | [] => .usage
  | ['h'] => .help
  | 'h' :: cs => helpBundle valueFollows cs
  | ['e'] => if valueFollows then .help else .usage
  | 'e' :: _ => .help
  | _ => .usage

/-- An option with a value attached to it. -/
def Options.attach (o : Options) (flag : Flag) (attached : Attached) (valueFollows : Bool) :
    Except Refusal Options :=
  match attached with
  | .nothing => o.switchOn flag
  | .long value => o.setAttached flag value
  | .short value =>
    if flag = .help then .error (helpBundle valueFollows value.toList) else o.setAttached flag value

/-- Whether the next argument can be the value of an option. -/
def startsPlain : List Arg → Bool
  | .plain _ :: _ => true
  | _ => false

/-- Goes through the arguments. `filled` says whether the place of the file is taken, `extra`
whether an argument was left over, which is an error at the end only. The mark goes with the file
before or after it. -/
def Options.ofArgs (o : Options) (filled extra : Bool) : List Arg → Except Refusal Options
  | [] => if extra then .error .usage else .ok o
  | .unknown :: rest => o.ofArgs filled true rest
  | .option flag .nothing :: .plain s :: rest =>
    if flag.hasValue then do
      let o' ← o.set flag s
      o'.ofArgs filled extra rest
    else do
      let o' ← o.switchOn flag
      o'.ofArgs filled extra (.plain s :: rest)
  | .option flag attached :: rest => do
    let o' ← o.attach flag attached (startsPlain rest)
    o'.ofArgs filled extra rest
  | .plain s :: .mark :: rest =>
    if filled then o.ofArgs true true rest
    else { o with file := some s }.ofArgs true extra rest
  | .plain s :: rest =>
    if filled then o.ofArgs true true rest
    else { o with file := some s }.ofArgs true extra rest
  | .mark :: .plain s :: rest =>
    if filled then o.ofArgs true true rest
    else { o with file := some s }.ofArgs true extra rest
  | .mark :: rest => o.ofArgs true (extra || filled) rest

/-- **The options of a command line.** -/
def Options.parse (argv : List String) : Except Refusal Options :=
  match classifyAll argv with
  | none => .error .usage
  | some args => ({} : Options).ofArgs false false args

/-- Where the program text comes from. -/
inductive Source
  | text (s : String)
  | file (name : String)
  | input
deriving DecidableEq, Repr

/-- The source that options name: a text on the command line, else a file, else the input. -/
def Options.source (o : Options) : Source :=
  match o.expr, o.file with
  | some s, _ => .text s
  | none, some name => if name.isEmpty then .input else .file name
  | none, none => .input

end Lambdict.CommandLine
