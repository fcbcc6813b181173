import Lambdict.Eval.Basic
import Lambdict.Program
import Lambdict.Settings

/-!
# Outcomes

What a run comes to: a value, or a failure with the kind and the message of the condition that ended
it. Aborts are not captured; they pass through.
-/

namespace Lambdict

/-- A value, or a failure. A failure that came from a run keeps its condition; one that was put
together from its texts has none. -/
inductive Outcome
  | ok (value : Value)
  | failure (kind message : String) (cause : Option Condition)

namespace Outcome

/-- What an error comes to: a condition is a failure, an abort passes through. -/
def ofError : Error → Except Abort Outcome
  | .condition c => .ok (.failure c.kind c.message (some c))
  | .abort a => .error a

/-- **The outcome of a result.** -/
def capture : Except Error Value → Except Abort Outcome
  | .ok v => .ok (.ok v)
  | .error e => ofError e

/-- Whether an outcome is a value. -/
def isOk : Outcome → Bool
  | .ok _ => true
  | .failure .. => false

/-- The value, or the condition that came in its place. -/
def unwrap : Outcome → Except Condition Value
  | .ok v => .ok v
  | .failure _ _ (some c) => .error c
  | .failure kind message none => .error (.reported (kind ++ ": " ++ message))

/-- Equality of outcomes whose values share no object: by value, or by kind and message. -/
def equal : Outcome → Outcome → Bool
  | .ok v, .ok w => v.equal w
  | .failure k m _, .failure k' m' _ => k = k' && m = m'
  | _, _ => false

/-- Whether an outcome equals itself. Only a number that differs from itself does not: inside
another value no number is looked at, since that value is one object. -/
def equalSelf : Outcome → Bool
  | .ok (.number n) => n.equal n
  | _ => true

/-- The constructor form of an outcome. -/
def inspect : Outcome → String
  | .ok v => "Ok(value=" ++ v.inspect ++ ")"
  | .failure kind message _ =>
    "Failure(kind=" ++ Text.quoted kind ++ ", message=" ++ Text.quoted message ++ ")"

/-- The outcome in words. -/
def plain : Outcome → String
  | .ok v => (Outcome.ok v).inspect
  | .failure kind message _ => kind ++ ": " ++ message

/-- Whether every integer of an outcome can be written. -/
def writable : Outcome → Bool
  | .ok v => v.writable
  | .failure .. => true

/-- Equality of every two of several outcomes. -/
def equalities (outcomes : List Outcome) : List (List Bool) :=
  outcomes.zipIdx.map fun (a, i) =>
    outcomes.zipIdx.map fun (b, j) => if i = j then a.equalSelf else a.equal b

end Outcome

/-- **Runs a program text** in a fresh environment, with closure calls nested at most `depth`
deep. -/
def runText (depth : Nat) (settings : Settings) (text : String) : Option (Except Abort Outcome) :=
  match parseProgram text with
  | .error e => some (Outcome.ofError e)
  | .ok program =>
    (runProgram depth (settings.prepare program)).map fun r => Outcome.capture r.1

end Lambdict
