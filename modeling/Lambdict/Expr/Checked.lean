import Lambdict.Expr.Inspect

/-!
# Checked expressions

Expressions that come from outside are put together from values that may be anything. Each function
here takes the parts of one kind of expression and gives that expression, or says what is wrong with
the first part that does not fit. A checked expression has non-empty names, parameters and keys
without repetition, lambdas with a body, definitions only in the body of a lambda, no dictionary
directly under a quote, and expressions wherever expressions are due.

A closure is never checked. `Expr.lambda?` checks it when it turns back into a lambda.
-/

namespace Lambdict

/-- The checks on the parameters of a lambda and on the presence of a body. -/
def checkParameters (params : List String) (hasBody : Bool) : Except Malformed Unit :=
  if params.any String.isEmpty then .error (.parameterName (Text.quoted ""))
  else if ¬ params.Nodup then .error (.duplicateParameters params)
  else if !hasBody then .error (.emptyBody .lambda)
  else .ok ()

/-- The lambda with given parameters and body, if it is well formed. -/
def Expr.lambda? (params : List String) (body : List Expr) : Except Malformed Expr := do
  checkParameters params (!body.isEmpty)
  match body.find? (!·.isProper) with
  | some e => .error (.notAnExpression .lambda e.inspect)
  | none => .ok (.lambda params body)

namespace Value

/-- The items of a value that can be gone through: a sequence, the characters of a string, the
elements of a chain. -/
def items? : Value → Option (List Value)
  | .sequence _ vs => some vs
  | .string s => some (s.toList.map fun c => .string (String.singleton c))
  | .pair _ h t => some (h :: t.heads)
  | _ => none

/-- The name that a value is: a string that is not empty. -/
def name? : Value → Option String
  | .string s => if s.isEmpty then none else some s
  | _ => none

/-- The expression that a value is, for an owner that may admit definitions or not. -/
def expression (owner : NodeKind) (definitions : Bool) (v : Value) : Except Malformed Expr :=
  match v.toExpr? with
  | some e => if e.isDefinition && !definitions then .error (.defineInside owner) else .ok e
  | none => .error (.notAnExpression owner v.inspect)

/-- The items of a value, for the owner and the field that need some. -/
def items (owner : NodeKind) (field : String) (v : Value) : Except Malformed (List Value) :=
  match v.items? with
  | some vs => .ok vs
  | none => .error (.notASequence owner field)

/-- The name of a parameter that a value is. -/
def parameter (v : Value) : Except Malformed String :=
  match v.name? with
  | some x => .ok x
  | none => .error (.parameterName v.inspect)

/-- The entry of a dictionary literal that a value is, after the keys that came before it. -/
def literalEntry (seen : List String) (v : Value) : Except Malformed (String × Expr) :=
  match v.items? with
  | some [k, e] =>
    match k.name? with
    | none => .error (.keyName k.inspect)
    | some key =>
      if seen.contains key then .error (.duplicateKey key)
      else (expression .dictionary false e).map fun e => (key, e)
  | _ => .error (.entryShape v.inspect)

/-- The entries of a dictionary literal that several values are. -/
def literalEntries (seen : List String) : List Value → Except Malformed (List (String × Expr))
  | [] => .ok []
  | v :: vs => do
    let (k, e) ← literalEntry seen v
    let es ← literalEntries (k :: seen) vs
    return (k, e) :: es

end Value

namespace Expr

/-- A checked number. -/
def numberOf : Value → Except Malformed Expr
  | .number n => .ok (.number n)
  | v => .error (.notANumber v.inspect)

/-- A checked boolean. -/
def booleanOf : Value → Except Malformed Expr
  | .boolean b => .ok (.boolean b)
  | v => .error (.notABoolean v.inspect)

/-- A checked string. -/
def stringOf : Value → Except Malformed Expr
  | .string s => .ok (.string s)
  | v => .error (.notAString v.inspect)

/-- A checked variable. -/
def varOf (name : Value) : Except Malformed Expr :=
  match name.name? with
  | some x => .ok (.var x)
  | none => .error (.variableName name.inspect)

/-- A checked conditional. -/
def condOf (test consequent alternate : Value) : Except Malformed Expr := do
  let t ← test.expression .conditional false
  let c ← consequent.expression .conditional false
  let a ← alternate.expression .conditional false
  return .cond t c a

/-- A checked lambda. -/
def lambdaOf (params body : Value) : Except Malformed Expr := do
  let ps ← params.items .lambda "params"
  let es ← body.items .lambda "body"
  let xs ← ps.mapM Value.parameter
  checkParameters xs (!es.isEmpty)
  return .lambda xs (← es.mapM (Value.expression .lambda true))

/-- A checked application. -/
def appOf (operator operands : Value) : Except Malformed Expr := do
  let f ← operator.expression .application false
  let es ← operands.items .application "operands"
  return .app f (← es.mapM (Value.expression .application false))

/-- A checked definition. -/
def defineOf (name value : Value) : Except Malformed Expr :=
  match name.name? with
  | none => .error (.definitionName name.inspect)
  | some x => (value.expression .definition false).map (.define x)

/-- A checked quotation. -/
def quoteOf : Value → Except Malformed Expr
  | .dict _ _ => .error .quotedDictionary
  | v => .ok (.quote v)

/-- A checked dictionary literal. Entries that are no sequence at all abort. -/
def dictOf (entries : Value) : Except Error Expr :=
  match entries.items? with
  | some vs => ((Value.literalEntries [] vs).mapError Malformed.toError).map .dict
  | none => .error (.abort (.noItems entries.typeName))

end Expr

end Lambdict
