import Lambdict.Expr.Basic

/-!
# Placement

Quoted data that has just been read, and values that come from outside, have objects without an
identity of their own. Before they are evaluated they are *placed*: every object in them gets a
number, and no number is given twice. From then on an object is one object, however often it is
evaluated or passed on.

What is placed is taken as a tree. A program that was read is one. In a program or in values that
were put together otherwise, one object may stand in two places; it is then placed in each, and
becomes two objects.
-/

namespace Lambdict

mutual

/-- Places the objects of an expression, counting from `n`. The expression is taken as a tree: an
object that stands in it twice gets an identity in each place. -/
def Expr.place (n : Nat) : Expr → Expr × Nat
  | .cond t c a =>
    let (t', n₁) := t.place n
    let (c', n₂) := c.place n₁
    let (a', n₃) := a.place n₂
    (.cond t' c' a', n₃)
  | .lambda ps b =>
    let (b', n₁) := Expr.placeAll n b
    (.lambda ps b', n₁)
  | .app f es =>
    let (f', n₁) := f.place n
    let (es', n₂) := Expr.placeAll n₁ es
    (.app f' es', n₂)
  | .define x e =>
    let (e', n₁) := e.place n
    (.define x e', n₁)
  | .quote d =>
    let (d', n₁) := d.place n
    (.quote d', n₁)
  | .dict es =>
    let (es', n₁) := Expr.placeEntries n es
    (.dict es', n₁)
  | .foreign v =>
    let (v', n₁) := v.place n
    (.foreign v', n₁)
  | .number m => (.number m, n)
  | .boolean b => (.boolean b, n)
  | .string s => (.string s, n)
  | .var x => (.var x, n)
  | .prim p => (.prim p, n)

/-- Places the objects of several expressions. -/
def Expr.placeAll (n : Nat) : List Expr → List Expr × Nat
  | [] => ([], n)
  | e :: es =>
    let (e', n₁) := e.place n
    let (es', n₂) := Expr.placeAll n₁ es
    (e' :: es', n₂)

/-- Places the objects of a dictionary literal. -/
def Expr.placeEntries (n : Nat) : List (String × Expr) → List (String × Expr) × Nat
  | [] => ([], n)
  | (k, e) :: es =>
    let (e', n₁) := e.place n
    let (es', n₂) := Expr.placeEntries n₁ es
    ((k, e') :: es', n₂)

/-- Places the objects of a value, counting from `n`. -/
def Value.place (n : Nat) : Value → Value × Nat
  | .pair _ h t =>
    let (h', n₁) := h.place (n + 1)
    let (t', n₂) := t.place n₁
    (.pair (.given n) h' t', n₂)
  | .closure _ ps b =>
    let (b', n₁) := Expr.placeAll (n + 1) b
    (.closure (.given n) ps b', n₁)
  | .dict _ es =>
    let (es', n₁) := Value.placeEntries (n + 1) es
    (.dict (.given n) es', n₁)
  | .code _ e =>
    let (e', n₁) := e.place (n + 1)
    (.code (.given n) e', n₁)
  | .sequence _ vs =>
    let (vs', n₁) := Value.placeAll (n + 1) vs
    (.sequence (.given n) vs', n₁)
  | .nothing => (.nothing, n)
  | .number m => (.number m, n)
  | .boolean b => (.boolean b, n)
  | .string s => (.string s, n)
  | .symbol x => (.symbol x, n)
  | .empty => (.empty, n)
  | .prim p => (.prim p, n)

/-- Places the objects of several values. -/
def Value.placeAll (n : Nat) : List Value → List Value × Nat
  | [] => ([], n)
  | v :: vs =>
    let (v', n₁) := v.place n
    let (vs', n₂) := Value.placeAll n₁ vs
    (v' :: vs', n₂)

/-- Places the objects of a dictionary's entries. -/
def Value.placeEntries (n : Nat) : List (String × Value) → List (String × Value) × Nat
  | [] => ([], n)
  | (k, v) :: es =>
    let (v', n₁) := v.place n
    let (es', n₂) := Value.placeEntries n₁ es
    ((k, v') :: es', n₂)

end

end Lambdict
