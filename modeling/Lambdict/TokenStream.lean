import Lambdict.SExpr

/-!
# Streams of tokens

The tokens of a text are taken one at a time or a form at a time, and what is taken is gone, also
when a form turns out to be wrong. A text that is cut short is noticed only when the token after the
last good one is wanted: then its fault is said, once, and from there on the stream is at its end.
-/

namespace Lambdict

/-- The tokens that are still to come, and what is wrong with the text after them. -/
structure TokenStream where
  pending : List Token
  fault : Option Malformed
deriving DecidableEq, Repr

namespace TokenStream

/-- The stream of a text's tokens. -/
def ofText (s : String) : TokenStream :=
  let (tokens, fault) := lex s
  ⟨tokens, fault⟩

/-- The stream that has come to its end. -/
def ended : TokenStream := ⟨[], none⟩

/-- The end of the pending tokens: what is wrong with the text, or else with its ending here. Once
said, the stream is at its end. -/
def atEnd {α : Type} (fault : Option Malformed) (otherwise : Except Error α) :
    Except Error α × TokenStream :=
  match fault with
  | some f => (.error (.condition (.malformed f)), ended)
  | none => (otherwise, ended)

/-- The next token, which stays in the stream; `none` at the end. -/
def peek (s : TokenStream) : Except Error (Option Token) × TokenStream :=
  match s.pending with
  | t :: _ => (.ok (some t), s)
  | [] => atEnd s.fault (.ok none)

/-- The next token, taken from the stream; `none` at the end. -/
def advance (s : TokenStream) : Except Error (Option Token) × TokenStream :=
  match s.pending with
  | t :: ts => (.ok (some t), ⟨ts, s.fault⟩)
  | [] => atEnd s.fault (.ok none)

/-- Reads one form from pending tokens, with contexts open. -/
def readFormFrom (fault : Option Malformed) (stack : List SExpr.Frame) :
    List Token → Except Error SExpr × TokenStream
  | [] => atEnd fault (.error (.condition (.malformed (SExpr.endFault stack))))
  | t :: ts =>
    match SExpr.feed t stack with
    | .shift stack' => readFormFrom fault stack' ts
    | .form x => (.ok x, ⟨ts, fault⟩)
    | .refuse e taken => (.error e, ⟨if taken then ts else t :: ts, fault⟩)

/-- Reads forms from pending tokens up to their end, with contexts open and forms read, the latter
in reverse. -/
def readAllFrom (fault : Option Malformed) (stack : List SExpr.Frame) (done : List SExpr) :
    List Token → Except Error (List SExpr) × TokenStream
  | [] =>
    atEnd fault
      (if stack.isEmpty then .ok done.reverse
       else .error (.condition (.malformed (SExpr.endFault stack))))
  | t :: ts =>
    match SExpr.feed t stack with
    | .shift stack' => readAllFrom fault stack' done ts
    | .form x => readAllFrom fault [] (x :: done) ts
    | .refuse e taken => (.error e, ⟨if taken then ts else t :: ts, fault⟩)

/-- **Reads one form.** The tokens that were taken before a failure stay taken. -/
def readForm (s : TokenStream) : Except Error SExpr × TokenStream :=
  readFormFrom s.fault [] s.pending

/-- **Reads every form** up to the end of the stream. -/
def readAll (s : TokenStream) : Except Error (List SExpr) × TokenStream :=
  readAllFrom s.fault [] [] s.pending

end TokenStream

/-- The forms of a text. -/
def SExpr.readText (s : String) : Except Error (List SExpr) :=
  (TokenStream.ofText s).readAll.1

end Lambdict
