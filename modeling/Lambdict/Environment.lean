import Lambdict.Expr.Inspect

/-!
# Environments

What the definitions at the top of a sequence have bound: a chain of bindings, the innermost first.
Extending an environment leaves it as it is and puts one more binding in front, so an environment
once made never changes. Parameters are not bound here; they are substituted.
-/

namespace Lambdict

/-- A chain of bindings, the innermost first. -/
structure Environment where
  bindings : List (String × Value)
deriving Inhabited

namespace Environment

/-- The environment that binds nothing. -/
def empty : Environment := ⟨[]⟩

/-- The environment with one more binding in front. -/
def extend (env : Environment) (name : String) (value : Value) : Environment :=
  ⟨(name, value) :: env.bindings⟩

/-- The environment with the bindings of a list, each in front of those before it. -/
def extendAll (env : Environment) (bindings : List (String × Value)) : Environment :=
  bindings.foldl (fun env b => env.extend b.1 b.2) env

/-- The innermost value of a name. -/
def lookup? (env : Environment) (name : String) : Option Value :=
  env.bindings.lookup name

/-- The innermost value of a name, or the condition that it is unbound. -/
def lookup (env : Environment) (name : String) : Except Condition Value :=
  match env.lookup? name with
  | some v => .ok v
  | none => .error (.unbound name)

/-- Whether a name is bound. -/
def contains (env : Environment) (name : String) : Bool :=
  (env.lookup? name).isSome

/-- The number of bindings, hidden ones included. -/
def depth (env : Environment) : Nat :=
  env.bindings.length

/-- The environment in words, the innermost binding first. -/
def describe (env : Environment) : String :=
  "<Environment chain: " ++
    " -> ".intercalate (env.bindings.map fun b => "\x7b" ++ b.1 ++ ": " ++ b.2.inspect ++ "\x7d") ++
    ">"

@[simp]
theorem lookup?_extend_self (env : Environment) (x : String) (v : Value) :
    (env.extend x v).lookup? x = some v := by
  simp [extend, lookup?]

theorem lookup?_extend_of_ne (env : Environment) {x y : String} (v : Value) (h : y ≠ x) :
    (env.extend x v).lookup? y = env.lookup? y := by
  have : (y == x) = false := by simpa using h
  simp [extend, lookup?, List.lookup_cons, this]

end Environment

end Lambdict
