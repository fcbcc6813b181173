import Lambdict.Expr.Surface
import Lambdict.Name.Supply
import Lambdict.Renaming

/-!
# Evaluations

An evaluation runs on a store: the supply of fresh names, and the count of the objects made so far.
It ends with a value or an error, and in both cases with a store, since a failure does not take back
names that were drawn. It may also not end within the depth of calls it was given; then it says
nothing at all (`none`).
-/

namespace Lambdict

/-- What an evaluation reads and changes, and whether the numbers of the names that it draws are
held to the digit limit. -/
structure Store where
  names : NameSupply
  made : Nat
  limited : Bool
deriving DecidableEq, Inhabited

/-- The store of a run, which begins with a supply that has given no name. A run would have to draw
a name for every number below the digit limit before the limit mattered, so it is not held to it. -/
def Store.start (names : NameSupply) : Store := ⟨names, 0, false⟩

/-- The store of a call by itself, which begins with any supply: its counter may be at the digit
limit, and names are held to it. -/
def Store.given (names : NameSupply) : Store := ⟨names, 0, true⟩

/-- An evaluation. -/
def Eval (α : Type) : Type :=
  Store → Option (Except Error α × Store)

namespace Eval

variable {α β : Type}

/-- The evaluation that ends with a value at once. -/
protected def pure (a : α) : Eval α :=
  fun s => some (.ok a, s)

/-- One evaluation after another. An error ends both. -/
protected def bind (x : Eval α) (f : α → Eval β) : Eval β := fun s =>
  match x s with
  | none => none
  | some (.error e, s') => some (.error e, s')
  | some (.ok a, s') => f a s'

instance : Monad Eval where
  pure := Eval.pure
  bind := Eval.bind

/-- The evaluation that ends with an error. -/
def fail (e : Error) : Eval α :=
  fun s => some (.error e, s)

/-- The evaluation that ends with a condition. -/
def raise (c : Condition) : Eval α :=
  fail (.condition c)

/-- The evaluation that does not end within its depth. -/
def exhausted : Eval α :=
  fun _ => none

/-- A result as an evaluation. -/
def ofExcept : Except Error α → Eval α
  | .ok a => Eval.pure a
  | .error e => fail e

/-- A result that may be a condition. -/
def ofCondition (r : Except Condition α) : Eval α :=
  ofExcept (r.mapError .condition)

/-- A result that may be an abort. -/
def ofAbort (r : Except Abort α) : Eval α :=
  ofExcept (r.mapError .abort)

/-- The identity of an object that is made now. -/
def newIdentity : Eval Identity :=
  fun s => some (.ok (.made s.made), { s with made := s.made + 1 })

/-- A body with the parameters inside it renamed, which draws on the supply. A number over the digit
limit, where the store is held to it, ends the evaluation and leaves the supply as it was. -/
def renameBody (body : List Expr) : Eval (List Expr) := fun s =>
  if s.limited then
    match Expr.renameAllWithin body s.names with
    | .ok (body', names) => some (.ok body', { s with names })
    | .error a => some (.error (.abort a), s)
  else
    let (body', names) := Expr.renameAll body s.names
    some (.ok body', { s with names })

@[simp]
theorem pure_apply (a : α) (s : Store) : (pure a : Eval α) s = some (.ok a, s) := rfl

@[simp]
theorem fail_apply (e : Error) (s : Store) : (fail e : Eval α) s = some (.error e, s) := rfl

@[simp]
theorem exhausted_apply (s : Store) : (exhausted : Eval α) s = none := rfl

theorem bind_apply (x : Eval α) (f : α → Eval β) (s : Store) :
    (x >>= f) s =
      match x s with
      | none => none
      | some (.error e, s') => some (.error e, s')
      | some (.ok a, s') => f a s' := rfl

/-- An evaluation followed by nothing is itself. -/
theorem bind_pure_self (x : Eval α) : x.bind Eval.pure = x := by
  funext s
  unfold Eval.bind Eval.pure
  rcases x s with _ | ⟨_ | _, _⟩ <;> rfl

/-- How a chain of evaluations is bracketed does not matter. -/
theorem bind_bind {γ : Type} (x : Eval α) (f : α → Eval β) (g : β → Eval γ) :
    (x.bind f).bind g = x.bind fun a => (f a).bind g := by
  funext s
  unfold Eval.bind
  rcases x s with _ | ⟨_ | _, _⟩ <;> rfl

instance : LawfulMonad Eval :=
  LawfulMonad.mk' Eval bind_pure_self (fun _ _ => rfl) bind_bind

end Eval

end Lambdict
