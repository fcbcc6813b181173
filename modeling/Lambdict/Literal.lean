import Lambdict.Expr.Checked

/-!
# Literals

An argument enters the body of a closure as an expression that evaluates to it again. Atoms and
primitives are written as they are, symbols and lists are quoted, and a closure turns back into its
lambda. A dictionary has no such form, and neither has the absence of a value, code or a sequence.
-/

namespace Lambdict

/-- **The expression that a value is literally**, if it has one. -/
def Value.literal? : Value → Except Condition Expr
  | .boolean b => .ok (.boolean b)
  | .number n => .ok (.number n)
  | .string s => .ok (.string s)
  | .prim p => .ok (.prim p)
  | .closure _ ps b => (Expr.lambda? ps b).mapError .malformed
  | .dict _ _ => .error .dictionaryLiteral
  | .symbol x => .ok (.quote (.symbol x))
  | .empty => .ok (.quote .empty)
  | .pair id h t => .ok (.quote (.pair id h t))
  | .nothing => .error (.noLiteral Value.nothing.inspect)
  | .code id e => .error (.noLiteral (Value.code id e).inspect)
  | .sequence id vs => .error (.noLiteral (Value.sequence id vs).inspect)

/-- The literals of several values, from left to right. -/
def Value.literals? : List Value → Except Condition (List Expr)
  | [] => .ok []
  | v :: vs => do
    let e ← v.literal?
    let es ← Value.literals? vs
    return e :: es

end Lambdict
