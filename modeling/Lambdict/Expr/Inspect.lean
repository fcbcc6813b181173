import Lambdict.Expr.Basic

/-!
# Constructor form

The text of an expression or a value that shows how it is built: every node by its name and its
fields, strings quoted, doubles with their point. Messages that speak of something unexpected show
it in this form, since it tells apart what the surface form writes alike.
-/

namespace Lambdict

/-- Items in brackets, with a comma between each two and after a single one. -/
def bracketed (items : List String) : String :=
  match items with
  | [item] => "(" ++ item ++ ",)"
  | items => "(" ++ ", ".intercalate items ++ ")"

/-- Items in square brackets, with a comma between each two. -/
def listed (items : List String) : String :=
  "[" ++ ", ".intercalate items ++ "]"

/-- The name of a truth value. -/
def truthName (b : Bool) : String :=
  if b then "True" else "False"

mutual

/-- The constructor form of an expression. -/
def Expr.inspect : Expr → String
  | .number n => "NumberLiteral(value=" ++ n.inspect ++ ")"
  | .boolean b => "BooleanLiteral(value=" ++ truthName b ++ ")"
  | .string s => "StringLiteral(value=" ++ Text.quoted s ++ ")"
  | .var x => "VariableReference(name=" ++ Text.quoted x ++ ")"
  | .prim p => "PrimOp(" ++ Text.quoted p.name ++ ")"
  | .cond t c a =>
    "Conditional(test=" ++ t.inspect ++ ", consequent=" ++ c.inspect ++ ", alternate=" ++
      a.inspect ++ ")"
  | .lambda ps b =>
    "Lambda(params=" ++ bracketed (ps.map Text.quoted) ++ ", body=" ++
      bracketed (Expr.inspectAll b) ++ ")"
  | .app f es =>
    "Application(operator=" ++ f.inspect ++ ", operands=" ++ bracketed (Expr.inspectAll es) ++ ")"
  | .define x e => "Definition(name=" ++ Text.quoted x ++ ", value=" ++ e.inspect ++ ")"
  | .quote d => "LiteralData(datum=" ++ d.inspect ++ ")"
  | .dict es => "DictionaryLiteral(entries=" ++ bracketed (Expr.inspectEntries es) ++ ")"
  | .foreign v => v.inspect

/-- The constructor forms of several expressions. -/
def Expr.inspectAll : List Expr → List String
  | [] => []
  | e :: es => e.inspect :: Expr.inspectAll es

/-- The constructor forms of the entries of a dictionary literal. -/
def Expr.inspectEntries : List (String × Expr) → List String
  | [] => []
  | (k, e) :: es => ("(" ++ Text.quoted k ++ ", " ++ e.inspect ++ ")") :: Expr.inspectEntries es

/-- The constructor form of a value. -/
def Value.inspect : Value → String
  | .nothing => "None"
  | .number n => n.inspect
  | .boolean b => truthName b
  | .string s => Text.quoted s
  | .symbol x => "Symbol(" ++ Text.quoted x ++ ")"
  | .empty => "Empty"
  | .pair _ h t => "Pair(head=" ++ h.inspect ++ ", tail=" ++ t.inspect ++ ")"
  | .prim p => "PrimOp(" ++ Text.quoted p.name ++ ")"
  | .closure _ ps b =>
    "Closure(params=" ++ bracketed (ps.map Text.quoted) ++ ", body=" ++
      bracketed (Expr.inspectAll b) ++ ")"
  | .dict _ es => "DictValue(entries=" ++ Value.inspectEntries es ++ ")"
  | .code _ e => e.inspect
  | .sequence _ vs => listed (Value.inspectAll vs)

/-- The constructor forms of several values. -/
def Value.inspectAll : List Value → List String
  | [] => []
  | v :: vs => v.inspect :: Value.inspectAll vs

/-- The constructor form of a dictionary's entries, a chain of pairs. -/
def Value.inspectEntries : List (String × Value) → String
  | [] => "Empty"
  | (k, v) :: es =>
    "Pair(head=Pair(head=Symbol(" ++ Text.quoted k ++ "), tail=" ++ v.inspect ++ "), tail=" ++
      Value.inspectEntries es ++ ")"

end

mutual

/-- The name of an expression's type. -/
def Expr.typeName : Expr → String
  | .number _ => "NumberLiteral"
  | .boolean _ => "BooleanLiteral"
  | .string _ => "StringLiteral"
  | .var _ => "VariableReference"
  | .prim _ => "PrimOp"
  | .cond .. => NodeKind.conditional.name
  | .lambda .. => NodeKind.lambda.name
  | .app .. => NodeKind.application.name
  | .define .. => NodeKind.definition.name
  | .quote _ => "LiteralData"
  | .dict _ => NodeKind.dictionary.name
  | .foreign v => v.typeName

/-- The name of a value's type. -/
def Value.typeName : Value → String
  | .nothing => "NoneType"
  | .number (.int _) => "int"
  | .number (.float _) => "float"
  | .boolean _ => "bool"
  | .string _ => "str"
  | .symbol _ => "Symbol"
  | .empty => "EmptyType"
  | .pair .. => "Pair"
  | .prim _ => "PrimOp"
  | .closure .. => "Closure"
  | .dict .. => "DictValue"
  | .code _ e => e.typeName
  | .sequence .. => "list"

end

/-- The plain form of a value: what has a text of its own is that text, all else is in constructor
form. -/
def Value.plain : Value → String
  | .string s => s
  | .symbol x => x
  | .prim p => p.name
  | .empty => "'()"
  | .closure _ ps _ => "<Closure (" ++ " ".intercalate ps ++ ")>"
  | v => v.inspect

end Lambdict
