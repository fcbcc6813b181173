import Lambdict.Error

/-!
# Expressions and values

Expressions are what programs are made of, values what they evaluate to. The two hold each other: a
quoted datum is a value inside an expression, a closure is a value with expressions inside, and an
expression can itself be held as data (`Value.code`).

A closure captures nothing. It is the parameters and the body of a lambda, and what the body means
is settled by substitution when the closure is applied.

Pairs, closures, dictionaries, code and sequences are *objects*: two of them can look alike and yet
be two. An object carries its `Identity`, which printing and structural equality ignore.
-/

namespace Lambdict

/-- Which object this is: the `n`-th that came with programs or from outside, or the `n`-th that
evaluation made. -/
inductive Identity
  | given (n : Nat)
  | made (n : Nat)
deriving DecidableEq, Repr, Inhabited

mutual

/-- Expressions. -/
inductive Expr
  | number (n : Number)
  | boolean (b : Bool)
  | string (s : String)
  | var (name : String)
  | prim (p : Primitive)
  | cond (test consequent alternate : Expr)
  | lambda (params : List String) (body : List Expr)
  | app (operator : Expr) (operands : List Expr)
  | define (name : String) (value : Expr)
  | quote (datum : Value)
  /-- A dictionary literal; its keys are names. -/
  | dict (entries : List (String × Expr))
  /-- A value that stands where an expression belongs. No checked expression holds one. -/
  | foreign (v : Value)

/-- Values. -/
inductive Value
  /-- The absence of a value, which input ending in a definition has for its result. -/
  | nothing
  | number (n : Number)
  | boolean (b : Bool)
  | string (s : String)
  | symbol (name : String)
  | empty
  | pair (id : Identity) (head tail : Value)
  | prim (p : Primitive)
  | closure (id : Identity) (params : List String) (body : List Expr)
  /-- A dictionary; the first entry of a key counts. -/
  | dict (id : Identity) (entries : List (String × Value))
  | code (id : Identity) (e : Expr)
  /-- A plain sequence. Nothing in a program makes one; it only comes from outside. -/
  | sequence (id : Identity) (items : List Value)

end

instance : Inhabited Expr := ⟨.boolean false⟩

instance : Inhabited Value := ⟨.nothing⟩

namespace Expr

/-- An expression as a value: primitives are values of their own, every other expression is
code. -/
def toValue : Expr → Value
  | .prim p => .prim p
  | .foreign v => v
  | e => .code (.given 0) e

/-- Whether an expression has no expressions inside. -/
def isAtomic : Expr → Bool
  | .number _ | .boolean _ | .string _ | .var _ | .prim _ => true
  | _ => false

/-- Whether an expression is a definition. -/
def isDefinition : Expr → Bool
  | .define _ _ => true
  | _ => false

/-- Whether this is an expression at all. -/
def isProper : Expr → Bool
  | .foreign _ => false
  | _ => true

end Expr

namespace Value

/-- The expression that a value holds, if it holds one. -/
def toExpr? : Value → Option Expr
  | .prim p => some (.prim p)
  | .code _ e => some e
  | _ => none

/-- A value where an expression belongs. -/
def toExpr (v : Value) : Expr :=
  v.toExpr?.getD (.foreign v)

/-- Whether a value is a number. -/
def isNumber : Value → Bool
  | .number _ => true
  | _ => false

/-- Whether a value is false. Every other value counts as true. -/
def isFalse : Value → Bool
  | .boolean false => true
  | _ => false

/-- Whether a value is a boolean. -/
def isBoolean : Value → Bool
  | .boolean _ => true
  | _ => false

/-- Whether a value is a string. -/
def isString : Value → Bool
  | .string _ => true
  | _ => false

/-- Whether a value is a symbol. -/
def isSymbol : Value → Bool
  | .symbol _ => true
  | _ => false

/-- Whether a value is a pair. -/
def isPair : Value → Bool
  | .pair .. => true
  | _ => false

/-- Whether a value is a dictionary. -/
def isDict : Value → Bool
  | .dict .. => true
  | _ => false

/-- Whether a value is an atom: a number, a boolean, a string, a symbol or the empty list. -/
def isAtom : Value → Bool
  | .number _ | .boolean _ | .string _ | .symbol _ | .empty => true
  | _ => false

/-- Whether a value has the shape of quoted data: an atom or a pair. -/
def isDatum : Value → Bool
  | .pair .. => true
  | v => v.isAtom

/-- The elements of a chain of pairs, up to the first tail that is no pair. -/
def heads : Value → List Value
  | .pair _ h t => h :: t.heads
  | _ => []

/-- The first tail of a chain of pairs that is no pair. -/
def lastTail : Value → Value
  | .pair _ _ t => t.lastTail
  | v => v

/-- A chain of pairs with given elements and last tail, all of one identity. -/
def chain (id : Identity) (items : List Value) (tail : Value) : Value :=
  items.foldr (Value.pair id) tail

/-- The identity of an object; atoms, primitives and nothing have none. -/
def identity? : Value → Option Identity
  | .pair id _ _ | .closure id _ _ | .dict id _ | .code id _ | .sequence id _ => some id
  | _ => none

@[simp]
theorem heads_chain (id : Identity) (items : List Value) (tail : Value) :
    (chain id items tail).heads = items ++ tail.heads := by
  induction items with
  | nil => rfl
  | cons v items ih => simpa [chain, heads] using ih

@[simp]
theorem lastTail_chain (id : Identity) (items : List Value) (tail : Value) :
    (chain id items tail).lastTail = tail.lastTail := by
  induction items with
  | nil => rfl
  | cons v items ih => simpa [chain, lastTail] using ih

end Value

end Lambdict
