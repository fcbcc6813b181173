/-!
# Primitives

The closed set of primitive operations. A primitive is at once an expression and the value of that
expression, and its name can be bound by nobody, so a name either denotes a primitive everywhere or
nowhere (`Primitive.ofName?`).
-/

namespace Lambdict

/-- The primitive operations. -/
inductive Primitive
  | add | sub | mul | div
  | gt | lt | numEq | eq | stringEq
  | and | or | not
  | isPair | isNumber | isBoolean | isSymbol | isString | isDict
  | cons | car | cdr | list
  | dict | get | bind
deriving DecidableEq, Repr, Inhabited

namespace Primitive

/-- The name of a primitive in programs. -/
def name : Primitive → String
  | add => "+"
  | sub => "-"
  | mul => "*"
  | div => "/"
  | gt => ">"
  | lt => "<"
  | numEq => "="
  | eq => "eq?"
  | stringEq => "string=?"
  | and => "and"
  | or => "or"
  | not => "not"
  | isPair => "pair?"
  | isNumber => "number?"
  | isBoolean => "boolean?"
  | isSymbol => "symbol?"
  | isString => "string?"
  | isDict => "dict?"
  | cons => "cons"
  | car => "car"
  | cdr => "cdr"
  | list => "list"
  | dict => "dict"
  | get => "get"
  | bind => "bind"

/-- Every primitive, once. -/
def all : List Primitive :=
  [add, sub, mul, div, gt, lt, numEq, eq, stringEq, and, or, not, isPair, isNumber, isBoolean,
   isSymbol, isString, isDict, cons, car, cdr, list, dict, get, bind]

/-- The primitive of a name, `none` for a name that programs may bind. -/
def ofName? (s : String) : Option Primitive :=
  all.find? fun p => p.name = s

theorem mem_all (p : Primitive) : p ∈ all := by
  cases p <;> decide

theorem ofName?_name (p : Primitive) : ofName? p.name = some p := by
  cases p <;> decide

theorem name_of_ofName? {s : String} {p : Primitive} (h : ofName? s = some p) : p.name = s := by
  simpa using List.find?_some h

theorem name_injective {p q : Primitive} (h : p.name = q.name) : p = q := by
  have := ofName?_name p
  rw [h, ofName?_name q] at this
  exact (Option.some.inj this).symm

end Primitive

end Lambdict
