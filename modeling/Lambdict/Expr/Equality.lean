import Lambdict.Expr.Basic

/-!
# Structural equality

Two values are equal when they are built alike; which objects they are does not matter. Numbers are
equal when they are the same number, so an integer can equal a double.

There are two readings of a boolean beside a number. The *loose* one takes true for one and false
for zero; it holds at the top, inside the fields of expressions and in plain sequences. The *strict*
one keeps booleans and numbers apart; it holds for the elements and the last tail of chains, and
hence for the entries of dictionaries. `Value.equal` is strict from the top on, and is the equality
of results.

How two numbers are compared is a parameter, since a comparison of a thing with itself must not fail
on a number that differs from itself.
-/

namespace Lambdict

/-- A truth value as a number. -/
def truthNumber (b : Bool) : Number :=
  .int (if b then 1 else 0)

mutual

/-- Whether two expressions are built alike. -/
def Expr.equalBy (same : Number → Number → Bool) : Expr → Expr → Bool
  | .number m, .number n => same m n
  | .boolean a, .boolean b => a == b
  | .string s, .string t => s == t
  | .var x, .var y => x == y
  | .prim p, .prim q => p == q
  | .cond t c a, .cond t' c' a' => t.equalBy same t' && c.equalBy same c' && a.equalBy same a'
  | .lambda ps b, .lambda ps' b' => ps == ps' && Expr.equalAllBy same b b'
  | .app f es, .app f' es' => f.equalBy same f' && Expr.equalAllBy same es es'
  | .define x e, .define y e' => x == y && e.equalBy same e'
  | .quote d, .quote d' => d.equalBy same false d'
  | .dict es, .dict es' => Expr.equalEntriesBy same es es'
  | .foreign v, .foreign v' => v.equalBy same false v'
  | _, _ => false
termination_by structural a => a

/-- Whether two lists of expressions are equal one by one. -/
def Expr.equalAllBy (same : Number → Number → Bool) : List Expr → List Expr → Bool
  | [], [] => true
  | e :: es, e' :: es' => e.equalBy same e' && Expr.equalAllBy same es es'
  | _, _ => false
termination_by structural a => a

/-- Whether two dictionary literals have equal entries in the same order. -/
def Expr.equalEntriesBy (same : Number → Number → Bool) :
    List (String × Expr) → List (String × Expr) → Bool
  | [], [] => true
  | (k, e) :: es, (k', e') :: es' =>
    k == k' && e.equalBy same e' && Expr.equalEntriesBy same es es'
  | _, _ => false
termination_by structural a => a

/-- Whether two values are built alike, strictly or loosely at the top. -/
def Value.equalBy (same : Number → Number → Bool) (strict : Bool) : Value → Value → Bool
  | .nothing, .nothing => true
  | .number m, .number n => same m n
  | .number m, .boolean b => !strict && same m (truthNumber b)
  | .boolean a, .boolean b => a == b
  | .boolean a, .number n => !strict && same (truthNumber a) n
  | .string s, .string t => s == t
  | .symbol x, .symbol y => x == y
  | .empty, .empty => true
  | .pair _ h t, .pair _ h' t' => h.equalBy same true h' && t.equalBy same true t'
  | .prim p, .prim q => p == q
  | .closure _ ps b, .closure _ ps' b' => ps == ps' && Expr.equalAllBy same b b'
  | .dict _ es, .dict _ es' => Value.equalEntriesBy same es es'
  | .code _ e, .code _ e' => e.equalBy same e'
  | .sequence _ vs, .sequence _ vs' => Value.equalAllBy same vs vs'
  | _, _ => false
termination_by structural a => a

/-- Whether two plain sequences have equal items in the same order. -/
def Value.equalAllBy (same : Number → Number → Bool) : List Value → List Value → Bool
  | [], [] => true
  | v :: vs, v' :: vs' => v.equalBy same false v' && Value.equalAllBy same vs vs'
  | _, _ => false
termination_by structural a => a

/-- Whether two dictionaries have equal entries in the same order. -/
def Value.equalEntriesBy (same : Number → Number → Bool) :
    List (String × Value) → List (String × Value) → Bool
  | [], [] => true
  | (k, v) :: es, (k', v') :: es' =>
    k == k' && v.equalBy same true v' && Value.equalEntriesBy same es es'
  | _, _ => false
termination_by structural a => a

end

/-- Equality of results that share no object: booleans are never numbers. Where two results do share
one, a comparison may stop there, so that a number inside that differs from itself does not come
into it; `Value.EqualSharing` takes account of that. -/
def Value.equal (a b : Value) : Bool :=
  a.equalBy Number.equal true b

/-- Equality that takes a boolean at the top for the number it stands for. -/
def Value.looseEqual (a b : Value) : Bool :=
  a.equalBy Number.equal false b

/-- Whether two numbers are one number, also when it is not a number. -/
def Number.sameOrNaN (a b : Number) : Bool :=
  a.equal b || (a.isNaN && b.isNaN)

/-- Whether two programs are one: not a number counts as itself. -/
def sameProgram (p q : List Expr) : Bool :=
  Expr.equalAllBy Number.sameOrNaN p q

/-! ## Counting

When values are collected without repetition, equal ones are still told apart if a number inside one
is an integer and its counterpart a double, provided it stands in a chain or a dictionary. Values
with a plain sequence inside cannot be collected so. -/

mutual

/-- Whether the numbers in the chains of two equal expressions are of the same kinds. -/
def Expr.sameKinds : Expr → Expr → Bool
  | .cond t c a, .cond t' c' a' => t.sameKinds t' && c.sameKinds c' && a.sameKinds a'
  | .lambda _ b, .lambda _ b' => Expr.sameKindsAll b b'
  | .app f es, .app f' es' => f.sameKinds f' && Expr.sameKindsAll es es'
  | .define _ e, .define _ e' => e.sameKinds e'
  | .quote d, .quote d' => d.sameKinds false d'
  | .dict es, .dict es' => Expr.sameKindsEntries es es'
  | .foreign v, .foreign v' => v.sameKinds false v'
  | _, _ => true
termination_by structural a => a

/-- The same of two lists of expressions. -/
def Expr.sameKindsAll : List Expr → List Expr → Bool
  | e :: es, e' :: es' => e.sameKinds e' && Expr.sameKindsAll es es'
  | _, _ => true
termination_by structural a => a

/-- The same of the entries of two dictionary literals. -/
def Expr.sameKindsEntries : List (String × Expr) → List (String × Expr) → Bool
  | (_, e) :: es, (_, e') :: es' => e.sameKinds e' && Expr.sameKindsEntries es es'
  | _, _ => true
termination_by structural a => a

/-- Whether the numbers in the chains of two equal values are of the same kinds; `inChain` says
whether the values themselves stand in one. -/
def Value.sameKinds (inChain : Bool) : Value → Value → Bool
  | .number m, .number n => !inChain || m.isFloat == n.isFloat
  | .pair _ h t, .pair _ h' t' => h.sameKinds true h' && t.sameKinds true t'
  | .closure _ _ b, .closure _ _ b' => Expr.sameKindsAll b b'
  | .dict _ es, .dict _ es' => Value.sameKindsEntries es es'
  | .code _ e, .code _ e' => e.sameKinds e'
  | _, _ => true
termination_by structural a => a

/-- The same of the entries of two dictionaries. -/
def Value.sameKindsEntries : List (String × Value) → List (String × Value) → Bool
  | (_, v) :: es, (_, v') :: es' => v.sameKinds true v' && Value.sameKindsEntries es es'
  | _, _ => true
termination_by structural a => a

end

mutual

/-- Whether an expression holds no plain sequence. -/
def Expr.countable : Expr → Bool
  | .cond t c a => t.countable && c.countable && a.countable
  | .lambda _ b => Expr.countableAll b
  | .app f es => f.countable && Expr.countableAll es
  | .define _ e => e.countable
  | .quote d => d.countable
  | .dict es => Expr.countableEntries es
  | .foreign v => v.countable
  | .number _ | .boolean _ | .string _ | .var _ | .prim _ => true

/-- The same of several expressions. -/
def Expr.countableAll : List Expr → Bool
  | [] => true
  | e :: es => e.countable && Expr.countableAll es

/-- The same of the entries of a dictionary literal. -/
def Expr.countableEntries : List (String × Expr) → Bool
  | [] => true
  | (_, e) :: es => e.countable && Expr.countableEntries es

/-- Whether a value holds no plain sequence. -/
def Value.countable : Value → Bool
  | .pair _ h t => h.countable && t.countable
  | .closure _ _ b => Expr.countableAll b
  | .dict _ es => Value.countableEntries es
  | .code _ e => e.countable
  | .sequence .. => false
  | .nothing | .number _ | .boolean _ | .string _ | .symbol _ | .empty | .prim _ => true

/-- The same of the entries of a dictionary. -/
def Value.countableEntries : List (String × Value) → Bool
  | [] => true
  | (_, v) :: es => v.countable && Value.countableEntries es

end

/-- How many things a list holds when those that a test takes for one are counted once. -/
def countBy {α : Type} (same : α → α → Bool) (xs : List α) : Nat :=
  (xs.foldl (fun kept x => if kept.any (same x) then kept else x :: kept) []).length

/-- A count by a test, of values that can be counted. -/
def Value.countWith (same : Value → Value → Bool) (vs : List Value) : Except Abort Nat :=
  if vs.all Value.countable then .ok (countBy same vs) else .error .uncountable

/-- How many different values a list holds. -/
def Value.countDistinct : List Value → Except Abort Nat :=
  Value.countWith fun a b => a.looseEqual b && a.sameKinds false b

/-- How many different results the values of a list are: a result counts its value as standing in
a chain. -/
def Value.countDistinctResults : List Value → Except Abort Nat :=
  Value.countWith fun a b => a.equal b && a.sameKinds true b

end Lambdict
