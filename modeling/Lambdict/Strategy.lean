import Lambdict.Error
import Lambdict.Text.Word

/-!
# Strategies

The two ways in which dictionary literals are expanded, and their names.
-/

namespace Lambdict

/-- How dictionary literals are expanded. -/
inductive Strategy
  | construct | lookup
deriving DecidableEq, Repr, Inhabited

namespace Strategy

/-- The name of a strategy. -/
def name : Strategy → String
  | .construct => "construct"
  | .lookup => "lookup"

/-- The strategy with exactly this name. -/
def ofName? (s : String) : Option Strategy :=
  if s = "construct" then some .construct
  else if s = "lookup" then some .lookup
  else none

/-- The strategy that a text names, whatever the case of its letters and the blanks around it. -/
def parse (s : String) : Except Abort Strategy :=
  match ofName? (Text.word s) with
  | some strategy => .ok strategy
  | none => .error (.unknownStrategy s)

theorem ofName?_name (s : Strategy) : ofName? s.name = some s := by
  cases s <;> rfl

end Strategy

end Lambdict
