import Lambdict.Eval.Store
import Lambdict.Expr.Equality

/-!
# Applying primitives

Every primitive takes a list of values. It checks their number first where it has a fixed one, then
their shapes, and complains with a snapshot of all of them. Making the snapshot can itself abort.
-/

namespace Lambdict

namespace Value

/-- The number that a value is. -/
def number? : Value → Option Number
  | .number n => some n
  | _ => none

/-- The boolean that a value is. -/
def boolean? : Value → Option Bool
  | .boolean b => some b
  | _ => none

/-- Whether two values are one: the same primitive, both nothing, or the same object. -/
def identical : Value → Value → Bool
  | .nothing, .nothing => true
  | .prim p, .prim q => p = q
  | a, b =>
    match a.identity?, b.identity? with
    | some i, some j => i = j
    | _, _ => false

/-- `=`: numbers by value, atoms by structure, all else by identity. -/
def numEqual (a b : Value) : Bool :=
  match a.number?, b.number? with
  | some m, some n => m.equal n
  | _, _ => if a.isAtom && b.isAtom then a.equal b else a.identical b

/-- `eq?`: two atoms of the same kind that are equal. -/
def atomEqual : Value → Value → Bool
  | .number m, .number n => m.equal n
  | .boolean a, .boolean b => a = b
  | .string s, .string t => s = t
  | .symbol x, .symbol y => x = y
  | .empty, .empty => true
  | _, _ => false

/-- The entry that a value is, for a dictionary: a pair with a symbol in front. -/
def entry? : Value → Option (String × Value)
  | .pair _ (.symbol k) v => some (k, v)
  | _ => none

end Value

namespace Primitive

/-- The complaint of a primitive about its arguments. -/
def mismatch {α : Type} (op : Primitive) (args : List Value) (complaint : Complaint) : Eval α := do
  let shown ← Eval.ofAbort (renderArguments args)
  Eval.raise (.typeMismatch op shown complaint)

/-- The condition that a primitive was given a wrong number of arguments. -/
def wrongArity {α : Type} (op : Primitive) (expected : Nat) (args : List Value) : Eval α :=
  Eval.raise (.primitiveArity op expected args.length)

/-- A primitive of one argument. -/
def unary (op : Primitive) (args : List Value) (f : Value → Eval Value) : Eval Value :=
  match args with
  | [a] => f a
  | _ => op.wrongArity 1 args

/-- A primitive of two arguments. -/
def binary (op : Primitive) (args : List Value) (f : Value → Value → Eval Value) : Eval Value :=
  match args with
  | [a, b] => f a b
  | _ => op.wrongArity 2 args

/-- A truth value as the value of an evaluation. -/
def truth (b : Bool) : Eval Value :=
  pure (.boolean b)

/-- The result of arithmetic, which may break off. -/
def arithmetic (r : Except ArithmeticFault Number) : Eval Value :=
  (Eval.ofAbort (r.mapError .arithmetic)).bind fun n => pure (.number n)

/-- Arithmetic on any number of numbers. -/
def onNumbers (op : Primitive) (args : List Value)
    (f : List Number → Except ArithmeticFault Number) : Eval Value :=
  match args.mapM Value.number? with
  | some ns => arithmetic (f ns)
  | none => op.mismatch args .numbers

/-- Arithmetic on two numbers. -/
def onTwoNumbers (op : Primitive) (args : List Value)
    (f : Number → Number → Eval Value) : Eval Value :=
  op.binary args fun a b =>
    match a.number?, b.number? with
    | some m, some n => f m n
    | _, _ => op.mismatch args .numbers

/-- A comparison of two numbers or of two strings. -/
def comparison (op : Primitive) (args : List Value) (onNumber : Number → Number → Bool)
    (onString : String → String → Bool) : Eval Value :=
  op.binary args fun a b =>
    match a, b with
    | .number m, .number n => truth (onNumber m n)
    | .string s, .string t => truth (onString s t)
    | _, _ => op.mismatch args .ordered

/-- Logic on any number of booleans. -/
def onBooleans (op : Primitive) (args : List Value) (f : List Bool → Bool) : Eval Value :=
  match args.mapM Value.boolean? with
  | some bs => truth (f bs)
  | none => op.mismatch args .booleans

/-- A question about one value. -/
def question (op : Primitive) (args : List Value) (f : Value → Bool) : Eval Value :=
  op.unary args fun a => truth (f a)

/-- A new pair. -/
def newPair (head tail : Value) : Eval Value := do
  let id ← Eval.newIdentity
  return .pair id head tail

/-- A new list; its last pair is made first. -/
def newList : List Value → Eval Value
  | [] => pure .empty
  | v :: vs => do
    let tail ← newList vs
    newPair v tail

/-- A new dictionary. -/
def newDict (entries : List (String × Value)) : Eval Value := do
  let id ← Eval.newIdentity
  return .dict id entries

/-- The value of a key in a dictionary: the first entry of the key counts. -/
def lookupKey (entries : List (String × Value)) (key : String) : Eval Value :=
  match entries.lookup key with
  | some v => pure v
  | none => Eval.raise (.keyNotFound key)

/-- **Applies a primitive.** -/
def apply (op : Primitive) (args : List Value) : Eval Value :=
  match op with
  | .add => op.onNumbers args Number.sum
  | .mul => op.onNumbers args Number.product
  | .sub => op.onTwoNumbers args fun m n => arithmetic (m.sub n)
  | .div => op.onTwoNumbers args fun m n =>
    if n.isZero then op.mismatch args .divisionByZero else arithmetic (m.div n)
  | .gt => op.comparison args (fun m n => n.lt m) (fun s t => decide (t < s))
  | .lt => op.comparison args (fun m n => m.lt n) (fun s t => decide (s < t))
  | .numEq => op.binary args fun a b => truth (a.numEqual b)
  | .eq => op.binary args fun a b => truth (a.atomEqual b)
  | .stringEq => op.binary args fun a b =>
    match a, b with
    | .string s, .string t => truth (s = t)
    | _, _ => op.mismatch args .strings
  | .and => op.onBooleans args fun bs => bs.all id
  | .or => op.onBooleans args fun bs => bs.any id
  | .not => op.question args Value.isFalse
  | .isPair => op.question args Value.isPair
  | .isNumber => op.question args Value.isNumber
  | .isBoolean => op.question args Value.isBoolean
  | .isSymbol => op.question args Value.isSymbol
  | .isString => op.question args Value.isString
  | .isDict => op.question args Value.isDict
  | .cons => op.binary args newPair
  | .car => op.unary args fun a =>
    match a with
    | .pair _ h _ => pure h
    | _ => op.mismatch args .pair
  | .cdr => op.unary args fun a =>
    match a with
    | .pair _ _ t => pure t
    | _ => op.mismatch args .pair
  | .list => newList args
  | .dict =>
    match args.mapM Value.entry? with
    | some entries => newDict entries
    | none => op.mismatch args .entries
  | .get => op.binary args fun d k =>
    match d, k with
    | .dict _ entries, .symbol key => lookupKey entries key
    | _, _ => op.mismatch args .getShape
  | .bind =>
    match args with
    | [.dict _ entries, .symbol key, v] => newDict ((key, v) :: entries)
    | [_, _, _] => op.mismatch args .bindShape
    | _ => op.wrongArity 3 args

end Primitive

end Lambdict
