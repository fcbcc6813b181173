import Lambdict.Outcome

/-!
# Sessions

A session takes program texts one after another. What a text defines is there for the texts after
it, and the supply of names goes on, so that names stay fresh over the whole session. A text whose
reading fails changes nothing; a text that fails in one of its forms leaves what the forms before it
defined.
-/

namespace Lambdict

/-- The state of a session: its settings, what is defined, the store, and the count of the objects
that came with program texts. -/
structure Session where
  settings : Settings
  env : Environment
  store : Store
  given : Nat
deriving Inhabited

namespace Session

/-- A session that has seen nothing yet. -/
def start (settings : Settings) : Session :=
  ⟨settings, .empty, .start (.start ∅), 0⟩

/-- The program of a text, as the session's settings have it evaluated. -/
def prepare (s : Session) (text : String) : Except Error (List Expr) :=
  (parseProgram text).map s.settings.prepare

/-- Evaluates forms one after another. `last` is the value so far; a definition leaves none. -/
def evalForms (depth : Nat) (s : Session) (last : Value) :
    List Expr → Option (Except Error Value × Session)
  | [] => some (.ok last, s)
  | .define x e :: es =>
    match e.evalAt depth s.env s.store with
    | none => none
    | some (.error err, store) => some (.error err, { s with store })
    | some (.ok v, store) => evalForms depth { s with store, env := s.env.extend x v } .nothing es
  | e :: es =>
    match e.evalAt depth s.env s.store with
    | none => none
    | some (.error err, store) => some (.error err, { s with store })
    | some (.ok v, store) => evalForms depth { s with store } v es

/-- The session with the names of a program reserved and its objects placed; also the program so
placed. -/
def adopt (s : Session) (names : NameSet) (program : List Expr) : List Expr × Session :=
  let (placed, given) := Expr.placeAll s.given program
  (placed, { s with given, store := { s.store with names := s.store.names.reserve names } })

/-- **Evaluates a text.** The value is that of the last form, or nothing if that is a definition. -/
def eval (depth : Nat) (s : Session) (text : String) : Option (Except Error Value × Session) :=
  match s.prepare text with
  | .error e => some (.error e, s)
  | .ok program =>
    match collectNames program with
    | .error fault => some (.error fault.toError, s)
    | .ok names =>
      let (placed, s') := s.adopt names program
      evalForms depth s' .nothing placed

/-- Evaluates a text and captures what it comes to. -/
def run (depth : Nat) (s : Session) (text : String) : Option (Except Abort Outcome × Session) :=
  (s.eval depth text).map fun r => (Outcome.capture r.1, r.2)

/-- The bindings in sight, the innermost first, each with the text of its value. -/
def bindingTexts (s : Session) : Except Abort (List (String × String)) :=
  s.env.bindings.mapM fun b => b.2.render.map fun t => (b.1, t)

end Session

end Lambdict
