import Lambdict.Number.Numeral
import Lambdict.Token

/-!
# S-expressions

What a program text says before any form is given a meaning: numbers, booleans, strings, symbols and
lists of these, proper or with a last tail after a dot. A quote mark before a form stands for the
list of the symbol `quote` and that form.

Tokens are read by a machine with a stack of open contexts (`Frame`). Each token either is taken
onto the stack, or completes a form, or is refused; so reading is a recursion on the tokens.
-/

namespace Lambdict

/-- S-expressions. -/
inductive SExpr
  | number (n : Number)
  | boolean (b : Bool)
  | string (s : String)
  | symbol (name : String)
  | list (items : List SExpr)
  | dotted (items : List SExpr) (tail : SExpr)

instance : Inhabited SExpr := ⟨.list []⟩

namespace SExpr

mutual

/-- The constructor form of an S-expression. -/
def inspect : SExpr → String
  | .number n => n.inspect
  | .boolean b => if b then "True" else "False"
  | .string s => Text.quoted s
  | .symbol x => "Symbol(" ++ Text.quoted x ++ ")"
  | .list xs => "[" ++ ", ".intercalate (inspectAll xs) ++ "]"
  | .dotted xs t => "([" ++ ", ".intercalate (inspectAll xs) ++ "], " ++ t.inspect ++ ")"

/-- The constructor forms of several S-expressions. -/
def inspectAll : List SExpr → List String
  | [] => []
  | x :: xs => x.inspect :: inspectAll xs

end

/-- What a string token denotes: a backslash gives the character after it, and newline, tab or
carriage return for `n`, `t` and `r`. -/
def unescape : List Char → List Char
  | '\\' :: c :: cs =>
    (if c = 'n' then '\n' else if c = 't' then '\t' else if c = 'r' then '\r' else c) :: unescape cs
  | c :: cs => c :: unescape cs
  | [] => []

/-- What a symbol token denotes: a truth value, a number, or a symbol. An integer of too many digits
is refused. -/
def ofSymbol (text : String) : Except Error SExpr :=
  if text = "#t" then .ok (.boolean true)
  else if text = "#f" then .ok (.boolean false)
  else
    match Numeral.parse? text.toList with
    | none => .ok (.symbol text)
    | some numeral =>
      match numeral.toNumber with
      | .ok n => .ok (.number n)
      | .error digits => .error (.abort (.longNumeral digits))

/-- What is open while a form is read. The items of a list are kept in reverse. -/
inductive Frame
  /-- A quote mark that waits for its form. -/
  | quote
  /-- A list that waits for its next item or its end. -/
  | list (items : List SExpr)
  /-- A list that waits for the form after its dot. -/
  | dot (items : List SExpr)
  /-- A list that waits for its end after the form behind the dot. -/
  | tail (items : List SExpr) (last : SExpr)

/-- What a token does: the machine goes on with a stack, or a form is complete, or the token is
refused; `taken` says whether the refused token is used up. -/
inductive Step
  | shift (stack : List Frame)
  | form (x : SExpr)
  | refuse (e : Error) (taken : Bool)

/-- A form is complete: it goes into the innermost context that is open, and may complete that. -/
def complete (x : SExpr) : List Frame → Step
  | [] => .form x
  | .quote :: stack => complete (.list [.symbol "quote", x]) stack
  | .list items :: stack => .shift (.list (x :: items) :: stack)
  | .dot items :: stack => .shift (.tail items x :: stack)
  | .tail items last :: stack => .shift (.tail items last :: stack)

/-- A refused token that stays to be read. -/
def refuse (fault : Malformed) : Step :=
  .refuse (.condition (.malformed fault)) false

/-- A token where a form is due. -/
def beginForm (t : Token) (stack : List Frame) : Step :=
  match t with
  | .quote => .shift (.quote :: stack)
  | .opening _ => .shift (.list [] :: stack)
  | .closing _ => refuse .unexpectedClose
  | .string body => complete (.string (String.ofList (unescape body.toList))) stack
  | .symbol text =>
    match ofSymbol text with
    | .ok x => complete x stack
    | .error e => .refuse e true

/-- One token. -/
def feed (t : Token) (stack : List Frame) : Step :=
  match stack with
  | .list items :: rest =>
    match t with
    | .closing _ => complete (.list items.reverse) rest
    | t =>
      if t = .symbol "." then
        if items.isEmpty then refuse .dotWithoutElement else .shift (.dot items :: rest)
      else beginForm t stack
  | .tail items last :: rest =>
    match t with
    | .closing _ => complete (.dotted items.reverse last) rest
    | _ => refuse .expectedClose
  | stack => beginForm t stack

/-- What is wrong when the tokens end inside a form. -/
def endFault : List Frame → Malformed
  | .list _ :: _ => .unmatchedOpen
  | .tail _ _ :: _ => .expectedClose
  | _ => .unexpectedEnd

end SExpr

end Lambdict
