import Lambdict.Environment
import Lambdict.Eval.Primitive
import Lambdict.Expr.Placement
import Lambdict.Literal
import Lambdict.Name.Collect

/-!
# Evaluation

Evaluation is strict and goes from left to right. The environment holds what definitions have bound;
a lambda evaluates to a closure that captures nothing of it.

A closure is applied in three steps. Its body is renamed, so that no parameter bound inside can
capture anything. The literals of the arguments are substituted for the parameters. The result is
evaluated as a sequence in the empty environment.

Evaluating an expression is a recursion on the expression, but for one step: applying a closure
evaluates a new expression. So the evaluator takes the way to apply a value as a parameter
(`Expr.evalWith`), and `Value.applyAt` ties the knot, with a bound on the depth of closure calls. An
evaluation that ends at all ends at every larger depth, and in the same way.
-/

namespace Lambdict

/-- A way to apply a value to arguments. -/
abbrev Applier := Value → List Value → Eval Value

namespace Expr

mutual

/-- The value of an expression, given how values are applied. -/
def evalWith (apply : Applier) (env : Environment) : Expr → Eval Value
  | .number n => pure (.number n)
  | .boolean b => pure (.boolean b)
  | .string s => pure (.string s)
  | .prim p => pure (.prim p)
  | .quote d => pure d
  | .var x => Eval.ofCondition (env.lookup x)
  | .cond t c a => do
    let v ← t.evalWith apply env
    if v.isFalse then a.evalWith apply env else c.evalWith apply env
  | .lambda ps b => do
    let id ← Eval.newIdentity
    return .closure id ps b
  | .app f es => do
    let proc ← f.evalWith apply env
    let args ← evalEachWith apply env es
    apply proc args
  | .dict es => do
    let entries ← evalEntriesWith apply env es
    Primitive.newDict entries
  | .define x _ => Eval.raise (.malformed (.misplacedDefine x))
  | .foreign v => Eval.raise (.malformed (.unknownExpression v.inspect))

/-- The values of several expressions, from left to right. -/
def evalEachWith (apply : Applier) (env : Environment) : List Expr → Eval (List Value)
  | [] => pure []
  | e :: es => do
    let v ← e.evalWith apply env
    let vs ← evalEachWith apply env es
    return v :: vs

/-- The entries of a dictionary literal, from left to right. An entry is a new pair of key and
value, so it takes an identity as a pair does. -/
def evalEntriesWith (apply : Applier) (env : Environment) :
    List (String × Expr) → Eval (List (String × Value))
  | [] => pure []
  | (k, e) :: es => do
    let v ← e.evalWith apply env
    let _ ← Eval.newIdentity
    let entries ← evalEntriesWith apply env es
    return (k, v) :: entries

end

/-- The value of a sequence is the value of its last expression. A definition binds its name for
the rest of the sequence, and must not come last. -/
def evalSeqWith (apply : Applier) (env : Environment) : List Expr → Eval Value
  | [] => Eval.raise .emptySequence
  | [.define x e] => do
    let _ ← e.evalWith apply env
    Eval.raise (.sequenceEndsInDefinition x)
  | [e] => e.evalWith apply env
  | .define x e :: es => do
    let v ← e.evalWith apply env
    evalSeqWith apply (env.extend x v) es
  | e :: es => do
    let _ ← e.evalWith apply env
    evalSeqWith apply env es

end Expr

namespace Value

/-- **Applies a value** to arguments, with closure calls nested at most `depth` deep. -/
def applyAt (depth : Nat) (proc : Value) (args : List Value) : Eval Value :=
  match proc with
  | .prim p => p.apply args
  | .closure _ params body =>
    match depth with
    | 0 => Eval.exhausted
    | depth + 1 =>
      if args.length = params.length then do
        let renamed ← Eval.renameBody body
        let literals ← Eval.ofCondition (literals? args)
        Expr.evalSeqWith (applyAt depth) .empty
          (Expr.substSeq (.ofLists params literals) renamed)
      else Eval.raise (.closureArity params args.length)
  | .dict _ entries =>
    match args with
    | [.symbol key] => Primitive.lookupKey entries key
    | _ => Eval.raise (.dictionaryArguments args.length)
  | proc => do
    let shown ← Eval.ofAbort proc.render
    Eval.raise (.notAProcedure shown)

end Value

/-- **The value of an expression**, with closure calls nested at most `depth` deep. -/
def Expr.evalAt (depth : Nat) (env : Environment) (e : Expr) : Eval Value :=
  e.evalWith (Value.applyAt depth) env

/-- **The value of a sequence**, with closure calls nested at most `depth` deep. -/
def Expr.evalSeqAt (depth : Nat) (env : Environment) (es : List Expr) : Eval Value :=
  Expr.evalSeqWith (Value.applyAt depth) env es

/-! ## Runs

A run puts the objects of all that it is given in their places, reserves the names of its program,
and gives what comes of it together with the store at the end. -/

/-- An evaluation on a store that reserves the names of a program, if these can be collected. -/
def Eval.reserving {α : Type} (program : List Expr) (x : Eval α) :
    Option (Except Error α × Store) :=
  match collectNames program with
  | .error fault => some (.error (.condition (.malformed fault)), .start (.start ∅))
  | .ok names => x (.start (.start names))

/-- **Runs a program** from the empty environment. -/
def runProgram (depth : Nat) (program : List Expr) : Option (Except Error Value × Store) :=
  let placed := (Expr.placeAll 0 program).1
  Eval.reserving placed (Expr.evalSeqAt depth .empty placed)

/-- An environment whose values are placed, counting from `n`, and the next number. The values are
taken as trees: an object that two bindings share gets an identity in each. -/
def Environment.place (n : Nat) (bindings : List (String × Value)) : Environment × Nat :=
  let (bindings', n') := Value.placeEntries n bindings
  (Environment.empty.extendAll bindings', n')

/-- The value of an expression by itself, in an environment given by its bindings from the outermost
on; only the names of the expression are reserved. -/
def evalAlone (depth : Nat) (bindings : List (String × Value)) (e : Expr) :
    Option (Except Error Value × Store) :=
  let (env, n) := Environment.place 0 bindings
  let placed := (e.place n).1
  Eval.reserving [placed] (placed.evalAt depth env)

/-- The value of a sequence by itself. -/
def evalSeqAlone (depth : Nat) (bindings : List (String × Value)) (es : List Expr) :
    Option (Except Error Value × Store) :=
  let (env, n) := Environment.place 0 bindings
  let placed := (Expr.placeAll n es).1
  Eval.reserving placed (Expr.evalSeqAt depth env placed)

/-- Applies a value by itself with a supply of names, whose counter may be any number. -/
def applyAlone (depth : Nat) (names : NameSupply) (proc : Value) (args : List Value) :
    Option (Except Error Value × Store) :=
  let (proc', n) := proc.place 0
  let args' := (Value.placeAll n args).1
  proc'.applyAt depth args' (.given names)

/-- Applies a primitive by itself. -/
def Primitive.applyAlone (p : Primitive) (args : List Value) :
    Option (Except Error Value × Store) :=
  p.apply (Value.placeAll 0 args).1 (.start (.start ∅))

end Lambdict
