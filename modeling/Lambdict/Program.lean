import Lambdict.Expr.Checked
import Lambdict.TokenStream

/-!
# Programs

A program is a sequence of expressions, some of them definitions. Here S-expressions become
expressions: the six keywords head their forms, primitive names denote primitives and can be bound
by no form, and all other non-empty lists are applications. A `let` has no expression of its own; it
is an applied lambda.

A definition is accepted only as an element of the program itself or of a body. A program may be
wrapped in one form headed by `L32`.
-/

namespace Lambdict

/-- The keywords that head the special forms. -/
inductive Keyword
  | quote | ifElse | lambda | dict | letIn | define
deriving DecidableEq, Repr

/-- The keyword of a name. -/
def Keyword.ofName? (s : String) : Option Keyword :=
  if s = "quote" then some .quote
  else if s = "if" then some .ifElse
  else if s = "lambda" then some .lambda
  else if s = "dict" then some .dict
  else if s = "let" then some .letIn
  else if s = "define" then some .define
  else none

namespace SExpr

/-- The keyword that an S-expression is. -/
def keyword? : SExpr → Option Keyword
  | .symbol x => Keyword.ofName? x
  | _ => none

mutual

/-- An S-expression as quoted data: lists are chains of pairs. -/
def toDatum : SExpr → Value
  | .number n => .number n
  | .boolean b => .boolean b
  | .string s => .string s
  | .symbol x => .symbol x
  | .list xs => toChain .empty xs
  | .dotted xs t => toChain t.toDatum xs

/-- S-expressions as a chain with a given last tail. -/
def toChain (tail : Value) : List SExpr → Value
  | [] => tail
  | x :: xs => .pair (.given 0) x.toDatum (toChain tail xs)

end

/-- A name that a form binds: a symbol that is no primitive. -/
def binder (form : BindingForm) : SExpr → Except Malformed String
  | .symbol x =>
    match Primitive.ofName? x with
    | none => .ok x
    | some _ => .error (.bindsPrimitive form x)
  | x => .error (.notABinder form x.inspect)

/-- Whether an S-expression has the shape of an entry of a dictionary literal. -/
def isEntry : SExpr → Bool
  | .list [.symbol _, _] => true
  | _ => false

/-- A dictionary literal whose keys must differ; the first key that comes again is reported. -/
def dictLiteral (entries : List (String × Expr)) : Except Malformed Expr :=
  go [] entries
where
  /-- Goes through the entries with the keys seen. -/
  go (seen : List String) : List (String × Expr) → Except Malformed Expr
    | [] => .ok (.dict entries)
    | (k, _) :: rest => if seen.contains k then .error (.duplicateKey k) else go (k :: seen) rest

mutual

/-- **The expression of an S-expression**; `top` says whether it may be a definition. -/
def toExpr (top : Bool) : SExpr → Except Malformed Expr
  | .number n => .ok (.number n)
  | .boolean b => .ok (.boolean b)
  | .string s => .ok (.string s)
  | .symbol x =>
    match Primitive.ofName? x with
    | some p => .ok (.prim p)
    | none => .ok (.var x)
  | .dotted _ _ => .error .dottedExpression
  | .list [] => .error .emptyCombination
  | .list (head :: args) =>
    match head.keyword? with
    | some .define =>
      if top then
        match args with
        | [x, e] => do
          let name ← binder .define x
          let value ← e.toExpr false
          return .define name value
        | _ => .error .defineShape
      else .error .nestedDefine
    | some .quote =>
      match args with
      | [d] => .ok (.quote d.toDatum)
      | _ => .error .quoteShape
    | some .ifElse =>
      match args with
      | [t, c, a] => do
        let t' ← t.toExpr false
        let c' ← c.toExpr false
        let a' ← a.toExpr false
        return .cond t' c' a'
      | _ => .error .ifShape
    | some .lambda =>
      match args with
      | .list xs :: body => do
        let params ← xs.mapM (binder .lambda)
        if body.isEmpty then .error (.emptyBody .lambda)
        let es ← toExprs true body
        Expr.lambda? params es
      | _ => .error .lambdaShape
    | some .letIn =>
      match args with
      | .list bindings :: body => do
        let bound ← toBindings bindings
        if body.isEmpty then .error (.emptyBody .letIn)
        let es ← toExprs true body
        let f ← Expr.lambda? (bound.map Prod.fst) es
        return .app f (bound.map Prod.snd)
      | _ => .error .letShape
    | some .dict =>
      if args.all isEntry then do
        let entries ← toEntries args
        dictLiteral entries
      else if args.any isEntry then .error .dictMixture
      else do
        let es ← toExprs false args
        return .app (.prim .dict) es
    | none => do
      let f ← head.toExpr false
      let es ← toExprs false args
      return .app f es

/-- The expressions of several S-expressions. -/
def toExprs (top : Bool) : List SExpr → Except Malformed (List Expr)
  | [] => .ok []
  | x :: xs => do
    let e ← x.toExpr top
    let es ← toExprs top xs
    return e :: es

/-- The names and values that a binding list binds. -/
def toBindings : List SExpr → Except Malformed (List (String × Expr))
  | [] => .ok []
  | .list [x, e] :: rest => do
    let name ← binder .letIn x
    let value ← e.toExpr false
    let bound ← toBindings rest
    return (name, value) :: bound
  | x :: _ => .error (.letBindingShape x.inspect)

/-- The keys and values of forms that have the shape of entries. -/
def toEntries : List SExpr → Except Malformed (List (String × Expr))
  | [] => .ok []
  | .list [.symbol k, e] :: rest => do
    let value ← e.toExpr false
    let entries ← toEntries rest
    return (k, value) :: entries
  | _ :: rest => toEntries rest

end

end SExpr

/-- The forms of a program without their wrapper. -/
def unwrapProgram : List SExpr → List SExpr
  | [.list (.symbol "L32" :: forms)] => forms
  | forms => forms

/-- **Parses a program.** -/
def parseProgram (s : String) : Except Error (List Expr) := do
  let forms ← SExpr.readText s
  (SExpr.toExprs true (unwrapProgram forms)).mapError Malformed.toError

/-- **Parses one expression**, which may not be a definition. -/
def parseExpression (s : String) : Except Error Expr := do
  let forms ← SExpr.readText s
  match forms with
  | [form] => (form.toExpr false).mapError Malformed.toError
  | _ => .error (Malformed.expressionCount forms.length).toError

end Lambdict
