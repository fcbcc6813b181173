import Lambdict.Name.Supply
import Lambdict.Substitution

/-!
# Renaming

Before a closure is applied, every parameter that a lambda inside its body binds gets a fresh name.
Inner lambdas are renamed before the lambdas around them, parameters from left to right; the supply
is threaded through in the order in which the parts of an expression are written. Names that no
parameter binds stay as they are.

As with the supply, there are two forms: `Expr.renameAllWithin` asks for names as they are written,
and ends with an abort at a number over the digit limit; `Expr.renameAll` gives the renamed
expressions that are meant, whatever the numbers.
-/

namespace Lambdict

namespace Expr

mutual

/-- **Renames** every parameter bound in an expression, whatever the numbers of the new names. -/
def rename : Expr → NameSupply → Expr × NameSupply
  | .lambda ps b, s =>
    let (b', s₁) := renameAll b s
    let (ps', s₂) := s₁.freshAll ps
    (.lambda ps' (substSeq (.ofLists ps (ps'.map .var)) b'), s₂)
  | .cond t c a, s =>
    let (t', s₁) := t.rename s
    let (c', s₂) := c.rename s₁
    let (a', s₃) := a.rename s₂
    (.cond t' c' a', s₃)
  | .app f es, s =>
    let (f', s₁) := f.rename s
    let (es', s₂) := renameAll es s₁
    (.app f' es', s₂)
  | .define x e, s =>
    let (e', s₁) := e.rename s
    (.define x e', s₁)
  | .dict es, s =>
    let (es', s₁) := renameEntries es s
    (.dict es', s₁)
  | .number n, s => (.number n, s)
  | .boolean b, s => (.boolean b, s)
  | .string t, s => (.string t, s)
  | .var x, s => (.var x, s)
  | .prim p, s => (.prim p, s)
  | .quote d, s => (.quote d, s)
  | .foreign v, s => (.foreign v, s)

/-- Renames several expressions, from left to right. -/
def renameAll : List Expr → NameSupply → List Expr × NameSupply
  | [], s => ([], s)
  | e :: es, s =>
    let (e', s₁) := e.rename s
    let (es', s₂) := renameAll es s₁
    (e' :: es', s₂)

/-- Renames the values of a dictionary literal, from left to right. -/
def renameEntries : List (String × Expr) → NameSupply → List (String × Expr) × NameSupply
  | [], s => ([], s)
  | (k, e) :: es, s =>
    let (e', s₁) := e.rename s
    let (es', s₂) := renameEntries es s₁
    ((k, e') :: es', s₂)

end

mutual

/-- **Renames an expression** with names as they are asked for. -/
def renameWithin : Expr → NameSupply → Except Abort (Expr × NameSupply)
  | .lambda ps b, s => do
    let (b', s₁) ← renameAllWithin b s
    let (ps', s₂) ← s₁.freshAllWithin ps
    return (.lambda ps' (substSeq (.ofLists ps (ps'.map .var)) b'), s₂)
  | .cond t c a, s => do
    let (t', s₁) ← t.renameWithin s
    let (c', s₂) ← c.renameWithin s₁
    let (a', s₃) ← a.renameWithin s₂
    return (.cond t' c' a', s₃)
  | .app f es, s => do
    let (f', s₁) ← f.renameWithin s
    let (es', s₂) ← renameAllWithin es s₁
    return (.app f' es', s₂)
  | .define x e, s => do
    let (e', s₁) ← e.renameWithin s
    return (.define x e', s₁)
  | .dict es, s => do
    let (es', s₁) ← renameEntriesWithin es s
    return (.dict es', s₁)
  | .number n, s => .ok (.number n, s)
  | .boolean b, s => .ok (.boolean b, s)
  | .string t, s => .ok (.string t, s)
  | .var x, s => .ok (.var x, s)
  | .prim p, s => .ok (.prim p, s)
  | .quote d, s => .ok (.quote d, s)
  | .foreign v, s => .ok (.foreign v, s)

/-- **Renames several expressions** with names as they are asked for. -/
def renameAllWithin : List Expr → NameSupply → Except Abort (List Expr × NameSupply)
  | [], s => .ok ([], s)
  | e :: es, s => do
    let (e', s₁) ← e.renameWithin s
    let (es', s₂) ← renameAllWithin es s₁
    return (e' :: es', s₂)

/-- Renames the values of a dictionary literal with names as they are asked for. -/
def renameEntriesWithin :
    List (String × Expr) → NameSupply → Except Abort (List (String × Expr) × NameSupply)
  | [], s => .ok ([], s)
  | (k, e) :: es, s => do
    let (e', s₁) ← e.renameWithin s
    let (es', s₂) ← renameEntriesWithin es s₁
    return ((k, e') :: es', s₂)

end

theorem keys_renameEntries (es : List (String × Expr)) (s : NameSupply) :
    (renameEntries es s).1.map Prod.fst = es.map Prod.fst := by
  induction es generalizing s with
  | nil => rfl
  | cons p es ih => exact congrArg (p.1 :: ·) (ih _)

theorem values_renameEntries (es : List (String × Expr)) (s : NameSupply) :
    (renameEntries es s).1.map Prod.snd = (renameAll (es.map Prod.snd) s).1 ∧
      (renameEntries es s).2 = (renameAll (es.map Prod.snd) s).2 := by
  induction es generalizing s with
  | nil => exact ⟨rfl, rfl⟩
  | cons p es ih =>
    obtain ⟨h₁, h₂⟩ := ih (p.2.rename s).2
    exact ⟨congrArg ((p.2.rename s).1 :: ·) h₁, h₂⟩

end Expr

end Lambdict
