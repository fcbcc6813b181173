import Lambdict.Desugar

/-!
# Settings

Whether programs are desugared, and how, unless it is said otherwise. Two variables of the process's
surroundings give the defaults; a variable that is unset or blank counts as not there.
-/

namespace Lambdict

/-- The variables of the surroundings. -/
abbrev Variables := String → Option String

/-- Whether sugar is expanded before evaluation, and by which strategy. -/
structure Settings where
  desugar : Bool
  strategy : Strategy
deriving DecidableEq, Repr, Inhabited

namespace Settings

/-- The variable that switches desugaring on. -/
def desugarVariable : String := "DICTSCHEME_DESUGAR"

/-- The variable that names the strategy. -/
def strategyVariable : String := "DICTSCHEME_DESUGAR_STRATEGY"

/-- The truth of a flag: one of four words says yes, all others no. -/
def flag (vars : Variables) (name : String) (default : Bool) : Bool :=
  match vars name with
  | none => default
  | some raw =>
    if Text.isBlankText raw then default
    else ["1", "true", "yes", "on"].contains (Text.word raw)

/-- Whether the surroundings ask for desugaring. -/
def desugarEnabled (vars : Variables) : Bool :=
  flag vars desugarVariable false

/-- The strategy that the surroundings name; *construct* if they name none. -/
def strategyOf (vars : Variables) : Except Abort Strategy :=
  match vars strategyVariable with
  | none => .ok .construct
  | some raw => if Text.isBlankText raw then .ok .construct else Strategy.parse raw

/-- The settings that are given, completed from the surroundings. -/
def complete (vars : Variables) (desugar : Option Bool) (strategy : Option Strategy) :
    Except Abort Settings := do
  let chosen ←
    match strategy with
    | some s => .ok s
    | none => strategyOf vars
  return ⟨desugar.getD (desugarEnabled vars), chosen⟩

/-- A program as these settings have it evaluated. -/
def prepare (s : Settings) (program : List Expr) : List Expr :=
  if s.desugar then Expr.desugarAll s.strategy program else program

end Settings

end Lambdict
