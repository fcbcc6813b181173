import Lambdict.Number.Basic
import Lambdict.Text.Digit

/-!
# Numerals

The texts that denote numbers: an optional sign, digits with at most one point among or around them,
and an optional exponent. A numeral of digits alone denotes an integer, every other one the nearest
double. Any decimal digits may be used. An integer of more digits than the digit limit is refused.
-/

namespace Lambdict

/-- The parts of a numeral: the digits before and after the point, and the exponent with its sign.
`point` says whether a point is written. -/
structure Numeral where
  negative : Bool
  whole : List Char
  point : Bool
  fraction : List Char
  exponent : Option (Bool × List Char)
deriving DecidableEq, Repr

namespace Numeral

/-- An optional sign and what follows it. -/
def takeSign : List Char → Bool × List Char
  | '-' :: cs => (true, cs)
  | '+' :: cs => (false, cs)
  | cs => (false, cs)

/-- The exponent that makes up the rest of a numeral: `some none` when there is no rest. -/
def exponent? : List Char → Option (Option (Bool × List Char))
  | [] => some none
  | c :: cs =>
    if c = 'e' ∨ c = 'E' then
      let (negative, ds) := takeSign cs
      if ds ≠ [] ∧ ds.all Text.isDigit then some (some (negative, ds)) else none
    else none

/-- The parts of a numeral, `none` for a text that is not one. -/
def parse? (cs : List Char) : Option Numeral :=
  let (negative, cs) := takeSign cs
  let whole := cs.takeWhile Text.isDigit
  match cs.dropWhile Text.isDigit with
  | '.' :: rest =>
    let fraction := rest.takeWhile Text.isDigit
    if whole = [] ∧ fraction = [] then none
    else (exponent? (rest.dropWhile Text.isDigit)).map fun e => ⟨negative, whole, true, fraction, e⟩
  | rest =>
    if whole = [] then none
    else (exponent? rest).map fun e => ⟨negative, whole, false, [], e⟩

/-- Whether a numeral denotes an integer. -/
def isInteger (n : Numeral) : Bool :=
  !n.point && n.exponent.isNone

/-- The value of an exponent. -/
def exponentValue (n : Numeral) : Int :=
  match n.exponent with
  | none => 0
  | some (negative, ds) => Double.signed negative (Text.digitsValue ds)

/-- The double that a numeral denotes. Beyond the four hundredth place no exponent matters: the
number is too large for a double, or rounds to zero. -/
def toDouble (n : Numeral) : Double :=
  let coefficient := Text.digitsValue (n.whole ++ n.fraction)
  let exponent := n.exponentValue - n.fraction.length
  let place := exponent + (Nat.toDigits 10 coefficient).length
  if coefficient = 0 ∨ place < -400 then .finite n.negative 0
  else if 400 < place then .infinite n.negative
  else Double.ofScientific n.negative coefficient exponent

/-- The number that a numeral denotes. An integer over the digit limit gives its number of digits
instead, leading zeros counted. -/
def toNumber (n : Numeral) : Except Nat Number :=
  if n.isInteger then
    if n.whole.length ≤ Number.digitLimit then
      .ok (.int (Double.signed n.negative (Text.digitsValue n.whole)))
    else .error n.whole.length
  else .ok (.float n.toDouble)

end Numeral

/-- The double with a given text: a numeral or one of the names `nan`, `inf` and `-inf`. -/
def Double.ofText? (s : String) : Option Double :=
  if s = "nan" then some .nan
  else if s = "inf" then some (.infinite false)
  else if s = "-inf" then some (.infinite true)
  else (Numeral.parse? s.toList).map Numeral.toDouble

end Lambdict
