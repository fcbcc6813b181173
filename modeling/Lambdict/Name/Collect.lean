import Lambdict.Expr.Checked
import Lambdict.Name.Set

/-!
# The names of a program

Every name that occurs in a program as a reference, a parameter or a defined name, so that it can be
reserved. Keys of dictionary literals and quoted symbols are no names. A closure that is held in
quoted data, at any depth of its chains, has names too; it is read as the lambda it would turn into,
and it must be well formed for that.

Parts are visited from the last to the first, so that of several ill-formed closures the last is
reported. The closures of one quoted datum are all checked before any is entered.
-/

namespace Lambdict

/-- Checks the closures in quoted data, the last one first. -/
def Value.checkClosures : Value → Except Malformed Unit
  | .pair _ h t => do
    t.checkClosures
    h.checkClosures
  | .closure _ ps b => (Expr.lambda? ps b).map fun _ => ()
  | _ => .ok ()

mutual

/-- The names of an expression, added to a set. -/
def Expr.addNames (acc : NameSet) : Expr → Except Malformed NameSet
  | .var x => .ok (acc.insert x)
  | .lambda ps b => Expr.addNamesAll (acc.insertAll ps) b
  | .cond t c a => do
    let acc ← a.addNames acc
    let acc ← c.addNames acc
    t.addNames acc
  | .app f es => do
    let acc ← Expr.addNamesAll acc es
    f.addNames acc
  | .define x e => e.addNames (acc.insert x)
  | .dict es => Expr.addNamesEntries acc es
  | .quote d => do
    d.checkClosures
    d.addNames acc
  | .number _ | .boolean _ | .string _ | .prim _ | .foreign _ => .ok acc

/-- The names of several expressions, the last one first. -/
def Expr.addNamesAll (acc : NameSet) : List Expr → Except Malformed NameSet
  | [] => .ok acc
  | e :: es => do
    let acc ← Expr.addNamesAll acc es
    e.addNames acc

/-- The names of the values of a dictionary literal, the last one first. -/
def Expr.addNamesEntries (acc : NameSet) : List (String × Expr) → Except Malformed NameSet
  | [] => .ok acc
  | (_, e) :: es => do
    let acc ← Expr.addNamesEntries acc es
    e.addNames acc

/-- The names of the closures in quoted data, the first one first. -/
def Value.addNames (acc : NameSet) : Value → Except Malformed NameSet
  | .pair _ h t => do
    let acc ← h.addNames acc
    t.addNames acc
  | .closure _ ps b => Expr.addNamesAll (acc.insertAll ps) b
  | _ => .ok acc

end

/-- **The names of a program.** -/
def collectNames (program : List Expr) : Except Malformed NameSet :=
  Expr.addNamesAll ∅ program

end Lambdict
