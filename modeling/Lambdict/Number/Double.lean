/-!
# Double-precision numbers

A finite double is a whole number of *units* of `2 ^ -1074`, the least positive one, with a sign. So
it is kept here: every operation is done exactly on units, as whole numbers or as a quotient of two,
and its result is then rounded once, to the nearest double and on a tie to the even one
(`Double.nearest`). Two doubles are compared with each other, and with integers, by comparing units;
nothing is rounded there (`Point`).

There is one not-a-number, and zero has two signs.
-/

namespace Lambdict

/-- A double-precision number: not a number, an infinity, or a signed number of units. -/
inductive Double
  | nan
  | infinite (negative : Bool)
  | finite (negative : Bool) (units : Nat)
deriving DecidableEq, Repr, Inhabited

/-- Where a number lies on the line: between the two infinities, a whole number of units. -/
inductive Point
  | bottom
  | units (n : Int)
  | top
deriving DecidableEq, Repr

namespace Point

/-- The order of the line. -/
def lt : Point → Point → Bool
  | .bottom, .bottom => false
  | .bottom, _ => true
  | .units m, .units n => m < n
  | .units _, .top => true
  | _, _ => false

theorem lt_irrefl (a : Point) : a.lt a = false := by
  cases a <;> simp [lt]

theorem lt_trans {a b c : Point} (hab : a.lt b = true) (hbc : b.lt c = true) : a.lt c = true := by
  cases a <;> cases b <;> cases c <;> simp_all [lt]
  omega

end Point

namespace Double

/-- The powers of two. -/
def twoPow (n : Nat) : Nat :=
  Nat.pow 2 n

/-- The powers of ten. -/
def tenPow (n : Nat) : Nat :=
  Nat.pow 10 n

/-- How many units make one. -/
def scale : Nat := twoPow 1074

/-- The least number of units that no finite double has. -/
def limit : Nat := twoPow 2098

/-- A quotient rounded to a whole number, a half to the even neighbour. -/
def roundHalfEven (num den : Nat) : Nat :=
  let q := num / den
  let r := 2 * (num % den)
  if r < den then q else if den < r then q + 1 else q + q % 2

/-- The grid on which doubles of a size lie: doubles of about `n` units are multiples of
`twoPow (gridShift n)`. -/
def gridShift (n : Nat) : Nat :=
  Nat.log2 n - 52

/-- **Rounding.** The double nearest to `num / den` units, an infinity when it lies too far out. -/
def nearest (negative : Bool) (num den : Nat) : Double :=
  let shift := gridShift (num / den)
  let units := roundHalfEven num (den * twoPow shift) * twoPow shift
  if units < limit then .finite negative units else .infinite negative

/-- Whether the sign is minus. -/
def isNegative : Double → Bool
  | .nan => false
  | .infinite s => s
  | .finite s _ => s

/-- A number of units with its sign. -/
def signed (negative : Bool) (units : Nat) : Int :=
  if negative then -(units : Int) else units

/-- Where a double lies on the line; not a number lies nowhere. -/
def point? : Double → Option Point
  | .nan => none
  | .infinite true => some .bottom
  | .infinite false => some .top
  | .finite s u => some (.units (signed s u))

/-- The double nearest to an integer. -/
def ofInt (n : Int) : Double :=
  nearest (n < 0) (n.natAbs * scale) 1

/-- The double nearest to `coefficient * 10 ^ exponent`. -/
def ofScientific (negative : Bool) (coefficient : Nat) (exponent : Int) : Double :=
  match exponent with
  | .ofNat e => nearest negative (coefficient * tenPow e * scale) 1
  | .negSucc e => nearest negative (coefficient * scale) (tenPow (e + 1))

/-- The integer that a double is, if it is one. -/
def toInt? : Double → Option Int
  | .finite s u => if u % scale = 0 then some (signed s (u / scale)) else none
  | _ => none

/-- The number of the other sign. -/
def neg : Double → Double
  | .nan => .nan
  | .infinite s => .infinite !s
  | .finite s u => .finite (!s) u

/-- The sum. Opposite infinities have none; a sum of zero is negative only if both terms are. -/
def add : Double → Double → Double
  | .nan, _ => .nan
  | _, .nan => .nan
  | .infinite s, .infinite t => if s = t then .infinite s else .nan
  | .infinite s, .finite _ _ => .infinite s
  | .finite _ _, .infinite t => .infinite t
  | .finite s u, .finite t v =>
    let sum := signed s u + signed t v
    if sum = 0 then .finite (s && t) 0 else nearest (sum < 0) sum.natAbs 1

/-- The difference. -/
def sub (x y : Double) : Double :=
  x.add y.neg

/-- The product. An infinity times zero has none. -/
def mul : Double → Double → Double
  | .nan, _ => .nan
  | _, .nan => .nan
  | .infinite s, .infinite t => .infinite (s != t)
  | .infinite s, .finite t v => if v = 0 then .nan else .infinite (s != t)
  | .finite s u, .infinite t => if u = 0 then .nan else .infinite (s != t)
  | .finite s u, .finite t v => nearest (s != t) (u * v) scale

/-- The quotient. Zero by zero and infinity by infinity have none; all else by zero is infinite. -/
def div : Double → Double → Double
  | .nan, _ => .nan
  | _, .nan => .nan
  | .infinite _, .infinite _ => .nan
  | .infinite s, .finite t _ => .infinite (s != t)
  | .finite s _, .infinite t => .finite (s != t) 0
  | .finite s u, .finite t v =>
    if v = 0 then (if u = 0 then .nan else .infinite (s != t))
    else nearest (s != t) (u * scale) v

/-- A half goes to the even neighbour, so rounding moves a number by at most half a step. -/
theorem roundHalfEven_near (num den : Nat) (h : 0 < den) :
    2 * (roundHalfEven num den * den) ≤ 2 * num + den ∧
      2 * num ≤ 2 * (roundHalfEven num den * den) + den := by
  have hd := Nat.div_add_mod num den
  have hr := Nat.mod_lt num h
  have hc : den * (num / den) = num / den * den := Nat.mul_comm _ _
  simp only [roundHalfEven]
  split
  · omega
  · split
    · have := Nat.add_mul (num / den) 1 den
      omega
    · have := Nat.add_mul (num / den) (num / den % 2) den
      rcases Nat.mod_two_eq_zero_or_one (num / den) with h0 | h1
      · simp only [h0, Nat.zero_mul, Nat.add_zero] at this ⊢
        omega
      · simp only [h1, Nat.one_mul] at this ⊢
        omega

/-- A quotient that is whole is not moved. -/
theorem roundHalfEven_mul (q den : Nat) (h : 0 < den) : roundHalfEven (q * den) den = q := by
  simp [roundHalfEven, Nat.mul_div_cancel _ h, h]

end Double

end Lambdict
