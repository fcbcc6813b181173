import Lambdict.Number.Shortest

/-!
# Numbers

A number is an integer of any size or a double. Integers stay integers under sum, difference and
product, and under a division that leaves no remainder. As soon as a double takes part, or a
division does not come out even, the result is a double: integers are then first rounded to doubles,
except that the quotient of two integers is rounded once, from its exact value.

Comparison never rounds: both numbers are placed on the line exactly (`Number.point?`).
-/

namespace Lambdict

/-- A number: an integer or a double. -/
inductive Number
  | int (n : Int)
  | float (x : Double)
deriving DecidableEq, Repr, Inhabited

/-- What makes arithmetic break off: an integer too large to become a double, a quotient of two
integers too large for one, or a divisor that is zero. -/
inductive ArithmeticFault
  | conversion
  | quotient
  /-- A zero divisor; `doubles` says whether the division is one of doubles. -/
  | zeroDivisor (doubles : Bool)
deriving DecidableEq, Repr

/-- The fault in words. -/
def ArithmeticFault.message : ArithmeticFault → String
  | .conversion => "int too large to convert to float"
  | .quotient => "integer division result too large for a float"
  | .zeroDivisor false => "division by zero"
  | .zeroDivisor true => "float division by zero"

/-- A double that was rounded from what is finite. An infinity is a fault. -/
def Double.orFault (fault : ArithmeticFault) : Double → Except ArithmeticFault Double
  | .infinite _ => .error fault
  | x => .ok x

namespace Number

/-- Where a number lies on the line, in units of a double. -/
def point? : Number → Option Point
  | .int n => some (.units (n * Double.scale))
  | .float x => x.point?

/-- Whether two numbers are the same number. Not a number differs from all, itself included. -/
def equal (a b : Number) : Bool :=
  match a.point?, b.point? with
  | some x, some y => x = y
  | _, _ => false

/-- Whether one number lies below another. -/
def lt (a b : Number) : Bool :=
  match a.point?, b.point? with
  | some x, some y => x.lt y
  | _, _ => false

/-- Whether a number is zero, of either sign. -/
def isZero (a : Number) : Bool :=
  a.equal (.int 0)

/-- Whether a number is a double. -/
def isFloat : Number → Bool
  | .int _ => false
  | .float _ => true

/-- Whether a number is not a number. -/
def isNaN (a : Number) : Bool :=
  a.point?.isNone

/-- A number as a double. -/
def toDouble : Number → Except ArithmeticFault Double
  | .float x => .ok x
  | .int n => (Double.ofInt n).orFault .conversion

/-- An operation that integers do among themselves and that doubles do otherwise. -/
def arith (onInt : Int → Int → Int) (onDouble : Double → Double → Double) :
    Number → Number → Except ArithmeticFault Number
  | .int m, .int n => .ok (.int (onInt m n))
  | a, b => do
    let x ← a.toDouble
    let y ← b.toDouble
    return .float (onDouble x y)

/-- The sum. -/
def add : Number → Number → Except ArithmeticFault Number :=
  arith (· + ·) Double.add

/-- The difference. -/
def sub : Number → Number → Except ArithmeticFault Number :=
  arith (· - ·) Double.sub

/-- The product. -/
def mul : Number → Number → Except ArithmeticFault Number :=
  arith (· * ·) Double.mul

/-- The double nearest to the quotient of two integers. -/
def trueQuotient (m n : Int) : Except ArithmeticFault Number :=
  let negative := decide (m < 0) != decide (n < 0)
  ((Double.nearest negative (m.natAbs * Double.scale) n.natAbs).orFault .quotient).map .float

/-- The quotient. By zero there is none. -/
def div : Number → Number → Except ArithmeticFault Number
  | .int m, .int n =>
    if n = 0 then .error (.zeroDivisor false)
    else if m % n = 0 then .ok (.int (m / n))
    else trueQuotient m n
  | a, b => do
    let x ← a.toDouble
    let y ← b.toDouble
    if (Number.float y).isZero then .error (.zeroDivisor true) else return .float (x.div y)

/-- The sum of a list, from the left. -/
def sum (ns : List Number) : Except ArithmeticFault Number :=
  ns.foldlM add (.int 0)

/-- The product of a list, from the left. -/
def product (ns : List Number) : Except ArithmeticFault Number :=
  ns.foldlM mul (.int 1)

/-! ## Texts -/

/-- The most decimal digits an integer may have in a text that is read or written. -/
def digitLimit : Nat := 4300

/-- Whether a number can be written: integers are bounded by the digit limit. -/
def writable : Number → Bool
  | .int n => n.natAbs < Double.tenPow digitLimit
  | .float _ => true

/-- The decimal text of an integer. -/
def intText : Int → String
  | .ofNat n => Nat.repr n
  | .negSucc n => "-" ++ Nat.repr (n + 1)

/-- A number as programs write it: a double that is an integer is written as that integer. -/
def text : Number → String
  | .int n => intText n
  | .float x =>
    match x.toInt? with
    | some n => intText n
    | none => x.text

/-- A number with its kind to be seen: a double always has a point, an exponent or a name. -/
def inspect : Number → String
  | .int n => intText n
  | .float x => x.text

/-! ## Equality -/

theorem equal_symm (a b : Number) : a.equal b = b.equal a := by
  unfold equal
  cases a.point? <;> cases b.point? <;> simp [eq_comm]

theorem equal_refl {a : Number} (h : a.isNaN = false) : a.equal a = true := by
  unfold equal
  unfold isNaN at h
  cases ha : a.point? <;> simp_all

theorem equal_trans {a b c : Number} (hab : a.equal b = true) (hbc : b.equal c = true) :
    a.equal c = true := by
  unfold equal at *
  cases ha : a.point? <;> cases hb : b.point? <;> cases hc : c.point? <;> simp_all

end Number

end Lambdict
