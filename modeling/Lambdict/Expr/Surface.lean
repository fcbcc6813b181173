import Lambdict.Expr.Inspect

/-!
# Surface form

The text of an expression is program text: read back, it gives the expression again, as far as the
language can say it. The text of a value is for people: it agrees with the program text of quoted
data except that the empty list shows its quote, and it writes closures and dictionaries, which no
program text denotes.

Integers over the digit limit have no text. `Value.writable` and `Expr.writable` say whether such an
integer occurs, and `Value.render` and `Expr.render` give the text or abort.
-/

namespace Lambdict

/-- The text of a truth value. -/
def truthText (b : Bool) : String :=
  if b then "#t" else "#f"

/-- A string in double quotes; only the double quote and the backslash are escaped. -/
def stringText (s : String) : String :=
  String.ofList ('\x22' :: s.toList.flatMap
    (fun c => if c = '\\' ∨ c = '\x22' then ['\\', c] else [c]) ++ ['\x22'])

/-- An item of a chain stands alone; a last tail stands after a dot and ends the chain. -/
def inChain (tail : Bool) (s : String) : String :=
  if tail then " . " ++ s ++ ")" else s

mutual

/-- The surface form of an expression. -/
def Expr.text : Expr → String
  | .number n => n.text
  | .boolean b => truthText b
  | .string s => stringText s
  | .var x => x
  | .prim p => p.name
  | .cond t c a => "(if " ++ t.text ++ " " ++ c.text ++ " " ++ a.text ++ ")"
  | .lambda ps b => "(lambda (" ++ " ".intercalate ps ++ ")" ++ Expr.textAll b ++ ")"
  | .app f es => "(" ++ f.text ++ Expr.textAll es ++ ")"
  | .define x e => "(define " ++ x ++ " " ++ e.text ++ ")"
  | .quote d => "'" ++ d.textIn true false
  | .dict es => "(dict" ++ Expr.textEntries es ++ ")"
  | .foreign v => v.inspect

/-- Expressions each after a space. -/
def Expr.textAll : List Expr → String
  | [] => ""
  | e :: es => " " ++ e.text ++ Expr.textAll es

/-- The entries of a dictionary literal, each after a space. -/
def Expr.textEntries : List (String × Expr) → String
  | [] => ""
  | (k, e) :: es => " (" ++ k ++ " " ++ e.text ++ ")" ++ Expr.textEntries es

/-- The surface form of a value, inside a quote or not, and as the tail of a chain or not. -/
def Value.textIn (quote tail : Bool) : Value → String
  | .nothing => inChain tail "None"
  | .number n => inChain tail n.text
  | .boolean b => inChain tail (truthText b)
  | .string s => inChain tail (stringText s)
  | .symbol x => inChain tail x
  | .empty => if tail then ")" else if quote then "()" else "'()"
  | .pair _ h t => (if tail then " " else "(") ++ h.textIn quote false ++ t.textIn quote true
  | .prim p => inChain tail p.name
  | .closure _ ps b =>
    inChain tail ("<Closure (" ++ " ".intercalate ps ++ ")" ++ Expr.textAll b ++ ">")
  | .dict _ es => inChain tail ("#dict(" ++ " ".intercalate (Value.textEntries es) ++ ")")
  | .code _ e => inChain tail e.inspect
  | .sequence _ vs => inChain tail (listed (Value.inspectAll vs))

/-- The entries of a dictionary. -/
def Value.textEntries : List (String × Value) → List String
  | [] => []
  | (k, v) :: es => ("(" ++ k ++ " " ++ v.textIn false false ++ ")") :: Value.textEntries es

end

/-- The surface form of a value. -/
def Value.text (v : Value) : String :=
  v.textIn false false

/-- The surface form of a program: one expression a line. -/
def programText (es : List Expr) : String :=
  "\n".intercalate (es.map Expr.text)

/-- The texts of arguments, as a message about them shows them. -/
def argumentsText (vs : List Value) : String :=
  listed (vs.map Value.text)

/-! ## What can be written -/

mutual

/-- Whether no integer in an expression is over the digit limit. -/
def Expr.writable : Expr → Bool
  | .number n => n.writable
  | .cond t c a => t.writable && c.writable && a.writable
  | .lambda _ b => Expr.writableAll b
  | .app f es => f.writable && Expr.writableAll es
  | .define _ e => e.writable
  | .quote d => d.writable
  | .dict es => Expr.writableEntries es
  | .foreign v => v.writable
  | .boolean _ | .string _ | .var _ | .prim _ => true

/-- The same of several expressions. -/
def Expr.writableAll : List Expr → Bool
  | [] => true
  | e :: es => e.writable && Expr.writableAll es

/-- The same of the entries of a dictionary literal. -/
def Expr.writableEntries : List (String × Expr) → Bool
  | [] => true
  | (_, e) :: es => e.writable && Expr.writableEntries es

/-- Whether no integer in a value is over the digit limit. -/
def Value.writable : Value → Bool
  | .number n => n.writable
  | .pair _ h t => h.writable && t.writable
  | .closure _ _ b => Expr.writableAll b
  | .dict _ es => Value.writableEntries es
  | .code _ e => e.writable
  | .sequence _ vs => Value.writableAll vs
  | .nothing | .boolean _ | .string _ | .symbol _ | .empty | .prim _ => true

/-- The same of several values. -/
def Value.writableAll : List Value → Bool
  | [] => true
  | v :: vs => v.writable && Value.writableAll vs

/-- The same of the entries of a dictionary. -/
def Value.writableEntries : List (String × Value) → Bool
  | [] => true
  | (_, v) :: es => v.writable && Value.writableEntries es

end

/-- A text that can be made only if all integers in it are within the digit limit. -/
def guardText (writable : Bool) (text : String) : Except Abort String :=
  if writable then .ok text else .error .longNumber

/-- The surface form of a value, if its integers can be written. -/
def Value.render (v : Value) : Except Abort String :=
  guardText v.writable v.text

/-- The surface form of an expression, if its integers can be written. -/
def Expr.render (e : Expr) : Except Abort String :=
  guardText e.writable e.text

/-- The surface form of a program, if its integers can be written. -/
def renderProgram (es : List Expr) : Except Abort String :=
  guardText (Expr.writableAll es) (programText es)

/-- The texts of arguments, if their integers can be written. -/
def renderArguments (vs : List Value) : Except Abort String :=
  guardText (Value.writableAll vs) (argumentsText vs)

end Lambdict
