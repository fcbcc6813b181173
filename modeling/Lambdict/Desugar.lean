import Lambdict.Expr.Basic
import Lambdict.Strategy

/-!
# Dictionary sugar

Dictionary literals are sugar. Two strategies expand them into lambdas, applications, conditionals
and primitives.

*Construct* turns a literal into a call of the primitive `dict` on pairs of a quoted key and a
value.

*Lookup* does the same, except that a literal applied to one key becomes a search: a lambda that is
applied to itself goes through the list of the pairs. The key travels in a list of one, so that it
need not have a literal form. When no pair matches, the empty dictionary is applied to the key,
which fails just as the literal would have.
-/

namespace Lambdict

namespace Desugar

/-- A call of a primitive. -/
def call (p : Primitive) (es : List Expr) : Expr :=
  .app (.prim p) es

/-- The lambda that searches a list of pairs for a key in a box:
`(lambda (self entries box) (if (pair? entries) (if (eq? (car (car entries)) (car box))
(cdr (car entries)) (self self (cdr entries) box)) ((dict) (car box))))`. -/
def scanner : Expr :=
  .lambda ["self", "entries", "box"]
    [.cond (call .isPair [.var "entries"])
      (.cond (call .eq [call .car [call .car [.var "entries"]], call .car [.var "box"]])
        (call .cdr [call .car [.var "entries"]])
        (.app (.var "self") [.var "self", call .cdr [.var "entries"], .var "box"]))
      (.app (call .dict []) [call .car [.var "box"]])]

/-- The search for a key in a list of pairs. -/
def search (pairs : List Expr) (key : Expr) : Expr :=
  .app scanner [scanner, call .list pairs, call .list [key]]

end Desugar

namespace Expr

mutual

/-- **Expands** the dictionary literals of an expression. Quoted data is left alone. -/
def desugar (strategy : Strategy) : Expr → Expr
  | .dict es => Desugar.call .dict (desugarEntries strategy es)
  | .app (.dict es) [key] =>
    match strategy with
    | .lookup => Desugar.search (desugarEntries strategy es) (key.desugar strategy)
    | .construct => .app (Desugar.call .dict (desugarEntries strategy es)) [key.desugar strategy]
  | .app f es => .app (f.desugar strategy) (desugarAll strategy es)
  | .cond t c a => .cond (t.desugar strategy) (c.desugar strategy) (a.desugar strategy)
  | .lambda ps b => .lambda ps (desugarAll strategy b)
  | .define x e => .define x (e.desugar strategy)
  | .number n => .number n
  | .boolean b => .boolean b
  | .string s => .string s
  | .var x => .var x
  | .prim p => .prim p
  | .quote d => .quote d
  | .foreign v => .foreign v

/-- Expands the dictionary literals of several expressions. -/
def desugarAll (strategy : Strategy) : List Expr → List Expr
  | [] => []
  | e :: es => e.desugar strategy :: desugarAll strategy es

/-- The entries of a dictionary literal as pairs: each a call of `cons` on the quoted key and the
value. -/
def desugarEntries (strategy : Strategy) : List (String × Expr) → List Expr
  | [] => []
  | (k, e) :: es =>
    Desugar.call .cons [.quote (.symbol k), e.desugar strategy] :: desugarEntries strategy es

end

mutual

/-- Whether an expression holds a dictionary literal outside quoted data. -/
def hasSugar : Expr → Bool
  | .dict _ => true
  | .app f es => f.hasSugar || hasSugarAny es
  | .cond t c a => t.hasSugar || c.hasSugar || a.hasSugar
  | .lambda _ b => hasSugarAny b
  | .define _ e => e.hasSugar
  | .number _ | .boolean _ | .string _ | .var _ | .prim _ | .quote _ | .foreign _ => false

/-- Whether one of several expressions holds a dictionary literal outside quoted data. -/
def hasSugarAny : List Expr → Bool
  | [] => false
  | e :: es => e.hasSugar || hasSugarAny es

end

end Expr

end Lambdict
