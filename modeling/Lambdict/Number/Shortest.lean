import Lambdict.Number.Double

/-!
# Shortest decimals

The decimal text of a double has the fewest digits that still read back as that double, and of the
decimals with so few digits it is the one nearest to it. The reals that round to a double form an
interval between the midpoints to its two neighbours; the ends belong to it when the double is even
on its grid. For one digit, two digits and so on, the two points of the decimal grid around the
double are tested; the first grid with a point in the interval gives the digits.

`Layout` then says how digits become a text.
-/

namespace Lambdict

/-- Decimal digits and the place of the point among them: `digits` after a leading `0.`, times
`10 ^ point`. -/
structure Decimal where
  digits : List Char
  point : Int
deriving DecidableEq, Repr

namespace Decimal

/-- The reals that round to a double, in quarters of a unit. -/
structure Interval where
  low : Nat
  high : Nat
  closed : Bool
deriving DecidableEq, Repr

/-- The interval of the double with so many units. Below a power of two the grid is finer by half.
-/
def interval (units : Nat) : Interval :=
  let shift := Double.gridShift units
  let step := Double.twoPow shift
  let below := if 0 < shift ∧ units = Double.twoPow (52 + shift) then step else 2 * step
  ⟨4 * units - below, 4 * units + 2 * step, units / step % 2 = 0⟩

/-- Whether a number of quarter units, given as a quotient, lies in an interval. -/
def Interval.holds (i : Interval) (num den : Nat) : Bool :=
  if i.closed then i.low * den ≤ num && num ≤ i.high * den
  else i.low * den < num && num < i.high * den

/-- The least `j` with `n * 10 ^ j ≥ bound`, looking at so many candidates. -/
def scaleUp (bound : Nat) : Nat → Nat → Nat
  | 0, _ => 0
  | k + 1, n => if bound ≤ n then 0 else 1 + scaleUp bound k (10 * n)

/-- The place of the first digit: the greatest `e` with `10 ^ e` at most so many units. -/
def leading (units : Nat) : Int :=
  if Double.scale ≤ units then ((Nat.toDigits 10 (units / Double.scale)).length : Int) - 1
  else -(scaleUp Double.scale 330 units : Int)

/-- Powers of ten with an integer exponent, as a numerator and a denominator. -/
def tenPow : Int → Nat × Nat
  | .ofNat e => (Double.tenPow e, 1)
  | .negSucc e => (1, Double.tenPow (e + 1))

/-- A whole number times `10 ^ exponent`, without zeros at the end. -/
def ofCoefficient (coefficient : Nat) (exponent : Int) : Decimal :=
  let ds := Nat.toDigits 10 coefficient
  ⟨(ds.reverse.dropWhile (· = '0')).reverse, exponent + ds.length⟩

/-- The better of the two points around a double on the grid `10 ^ exponent`, if one reads back. A
tie goes to the even coefficient. -/
def onGrid? (units : Nat) (exponent : Int) : Option Decimal :=
  let (up, down) := tenPow exponent
  let i := interval units
  let num := units * down
  let den := Double.scale * up
  let floor := num / den
  let reads (c : Nat) := i.holds (4 * c * den) down
  let rest := 2 * (num % den)
  match reads floor, reads (floor + 1) with
  | true, true =>
    if rest < den ∨ (rest = den ∧ floor % 2 = 0) then some (ofCoefficient floor exponent)
    else some (ofCoefficient (floor + 1) exponent)
  | true, false => some (ofCoefficient floor exponent)
  | false, true => some (ofCoefficient (floor + 1) exponent)
  | false, false => none

/-- **The shortest decimal** of a positive double. Seventeen digits always suffice. -/
def shortest (units : Nat) : Decimal :=
  let e := leading units
  ((List.range 17).findSome? fun (n : Nat) => onGrid? units (e - n)).getD (ofCoefficient 0 0)

/-- How a decimal is written: which places of the point are written out, and how many digits an
exponent has at least. -/
structure Layout where
  least : Int
  greatest : Int
  exponentWidth : Nat
deriving DecidableEq, Repr

/-- Doubles are written out from `0.0001` to below `10 ^ 16`, and with an exponent of two digits or
more outside. -/
def Layout.standard : Layout := ⟨-3, 16, 2⟩

/-- A decimal written out, with a digit on each side of the point. -/
def positional (d : Decimal) : List Char :=
  match d.point with
  | .ofNat p =>
    let whole := d.digits.take p ++ List.replicate (p - d.digits.length) '0'
    let fraction := d.digits.drop p
    (if p = 0 then ['0'] else whole) ++ '.' :: (if fraction = [] then ['0'] else fraction)
  | .negSucc p => '0' :: '.' :: (List.replicate (p + 1) '0' ++ d.digits)

/-- A decimal with its exponent: the first digit, the others after a point, the exponent with its
sign. -/
def exponential (width : Nat) (d : Decimal) : List Char :=
  let e := d.point - 1
  let ds := Nat.toDigits 10 e.natAbs
  let fraction := d.digits.drop 1
  d.digits.take 1 ++ (if fraction = [] then [] else '.' :: fraction) ++
    'e' :: (if e < 0 then '-' else '+') :: (List.replicate (width - ds.length) '0' ++ ds)

/-- A decimal in a layout. -/
def write (l : Layout) (d : Decimal) : List Char :=
  if l.least ≤ d.point ∧ d.point ≤ l.greatest then d.positional else d.exponential l.exponentWidth

end Decimal

/-- **The text of a double**: the shortest decimal that reads back. -/
def Double.text (x : Double) : String :=
  match x with
  | .nan => "nan"
  | .infinite s => if s then "-inf" else "inf"
  | .finite s u =>
    let body := if u = 0 then ['0', '.', '0'] else (Decimal.shortest u).write .standard
    String.ofList (if s then '-' :: body else body)

end Lambdict
