import Lambdict.Error
import Lambdict.Text.Blank

/-!
# Tokens

A program text is a sequence of tokens with gaps between them. A token is a quote mark, an opening
or a closing bracket (round and square ones count the same), a string in double quotes, or a symbol:
a longest run of characters that are not blank and that begin no other token. A gap consists of
blank characters, line comments and block comments; a block comment may hold others.

The lexer goes through the text character by character. Between two characters it is in one of five
modes (`Mode`), and one step (`Mode.step`) says what a character does to the mode and which tokens
it completes. So the lexer is a recursion on the text, and what it does on a joined text can be read
off what it does on the parts. It can fail only at the end of the text, inside a string or a block
comment.
-/

namespace Lambdict

/-- Tokens. A bracket keeps its shape, a string its text between the marks with the escapes as
written. -/
inductive Token
  | quote
  | opening (c : Char)
  | closing (c : Char)
  | string (body : String)
  | symbol (text : String)
deriving DecidableEq, Repr

namespace Token

/-- The class of a token. -/
def className : Token → String
  | .quote => "quote"
  | .opening _ => "lparen"
  | .closing _ => "rparen"
  | .string _ => "string"
  | .symbol _ => "symbol"

/-- The text of a token. -/
def text : Token → String
  | .quote => "'"
  | .opening c => String.singleton c
  | .closing c => String.singleton c
  | .string body => "\"" ++ body ++ "\""
  | .symbol text => text

end Token

/-- Whether a character can stand in a symbol. -/
def isSymbolChar (c : Char) : Bool :=
  !(Text.isBlank c || ['(', ')', '[', ']', '\x27', '\x22', ';'].contains c)

/-- Where the lexer is between two characters. What is read of a token is kept in reverse. -/
inductive Mode
  /-- Between tokens. -/
  | between
  | symbol (read : List Char)
  /-- In a string that began at a position; `escaped` says whether a backslash was just read. -/
  | string (start : Nat) (read : List Char) (escaped : Bool)
  /-- In a line comment. -/
  | line
  /-- In a block comment with so many others open around it; `half` is a `#` or `|` just read. -/
  | block (outer : Nat) (half : Option Char)
deriving DecidableEq, Repr

namespace Mode

/-- What a character begins between tokens. -/
def begin (i : Nat) (c : Char) : Mode × List Token :=
  if Text.isBlank c then (.between, [])
  else if c = ';' then (.line, [])
  else if c = '\x27' then (.between, [.quote])
  else if c = '(' ∨ c = '[' then (.between, [.opening c])
  else if c = ')' ∨ c = ']' then (.between, [.closing c])
  else if c = '\x22' then (.string i [] false, [])
  else (.symbol [c], [])

/-- One character: the mode after it, and the tokens it completes. A `#` that a `|` follows at once
is no symbol but opens a block comment. -/
def step (i : Nat) (c : Char) : Mode → Mode × List Token
  | .between => begin i c
  | .symbol read =>
    if read = ['#'] ∧ c = '|' then (.block 0 none, [])
    else if isSymbolChar c then (.symbol (c :: read), [])
    else
      let (m, ts) := begin i c
      (m, .symbol (String.ofList read.reverse) :: ts)
  | .string start read escaped =>
    if escaped then (.string start (c :: read) false, [])
    else if c = '\x22' then (.between, [.string (String.ofList read.reverse)])
    else (.string start (c :: read) (c = '\\'), [])
  | .line => if c = '\n' then (.between, []) else (.line, [])
  | .block outer half =>
    if half = some '#' ∧ c = '|' then (.block (outer + 1) none, [])
    else if half = some '|' ∧ c = '#' then
      match outer with
      | 0 => (.between, [])
      | n + 1 => (.block n none, [])
    else (.block outer (if c = '#' ∨ c = '|' then some c else none), [])

/-- The end of the text: the tokens it completes, and what is wrong if it comes too early. -/
def finish : Mode → List Token × Option Malformed
  | .between => ([], none)
  | .symbol read => ([.symbol (String.ofList read.reverse)], none)
  | .string start _ _ => ([], some (.unexpectedChar start '\x22'))
  | .line => ([], none)
  | .block _ _ => ([], some .unterminatedComment)

end Mode

/-- The tokens of the rest of a text, from a mode and a position on, and what is wrong after
them. -/
def lexFrom (m : Mode) (i : Nat) : List Char → List Token × Option Malformed
  | [] => m.finish
  | c :: cs =>
    let (m', ts) := m.step i c
    let (rest, fault) := lexFrom m' (i + 1) cs
    (ts ++ rest, fault)

/-- **The lexer**: the tokens of a text, and what is wrong after the last of them if the text is
cut short. -/
def lex (s : String) : List Token × Option Malformed :=
  lexFrom .between 0 s.toList

end Lambdict
