import Lambdict.Number.Basic

/-!
# Where arithmetic breaks off

Sums, differences and products break off only where an integer is too large to become a double.  A
quotient breaks off for two more reasons: it is itself too large, or the divisor is zero.  A divisor
that was an integer is looked at after it was rounded, but rounding makes no zero
(`Number.isZero_ofInt`).  So a division whose divisor was seen not to be zero ends with a number or
with an overflow (`Number.div_fault`).
-/

namespace Lambdict

/-- A fault that is an overflow, and not a zero divisor. -/
def ArithmeticFault.isOverflow : ArithmeticFault → Bool
  | .conversion => true
  | .quotient => true
  | .zeroDivisor _ => false

namespace Double

theorem twoPow_pos (n : Nat) : 0 < twoPow n :=
  Nat.two_pow_pos n

theorem scale_pos : 0 < scale :=
  twoPow_pos 1074

/-- Rounding to a whole number does not go below the whole part. -/
theorem le_roundHalfEven (num den : Nat) : num / den ≤ roundHalfEven num den := by
  unfold roundHalfEven
  dsimp only
  split
  · exact Nat.le_refl _
  · split <;> omega

/-- The grid at a size is not wider than the size. -/
theorem twoPow_gridShift_le {n : Nat} (h : n ≠ 0) : twoPow (gridShift n) ≤ n :=
  Nat.le_trans (Nat.pow_le_pow_right (by decide) (Nat.sub_le ..)) (Nat.log2_self_le h)

/-- A number of units that is not zero is not rounded to zero. -/
theorem nearest_ne_zero {u : Nat} (h : u ≠ 0) (negative s : Bool) :
    nearest negative u 1 ≠ .finite s 0 := by
  intro hzero
  have hgrid : 0 < twoPow (gridShift u) := twoPow_pos _
  have hround : 0 < roundHalfEven u (twoPow (gridShift u)) :=
    Nat.lt_of_lt_of_le (Nat.div_pos (twoPow_gridShift_le h) hgrid) (le_roundHalfEven ..)
  simp only [nearest, Nat.div_one, Nat.one_mul] at hzero
  split at hzero
  · have := Nat.mul_pos hround hgrid
    simp only [finite.injEq] at hzero
    omega
  · cases hzero

theorem eq_of_orFault {fault : ArithmeticFault} {x y : Double} (h : x.orFault fault = .ok y) :
    x = y := by
  cases x <;> cases h <;> rfl

theorem fault_of_orFault {fault f : ArithmeticFault} {x : Double}
    (h : x.orFault fault = .error f) : f = fault := by
  cases x <;> cases h
  rfl

end Double

namespace Number

theorem isZero_int {n : Int} (h : (int n).isZero = false) : n ≠ 0 := by
  rintro rfl
  have hzero : (int 0).isZero = true := equal_refl rfl
  simp [hzero] at h

theorem isZero_finite {s : Bool} {u : Nat} (h : u ≠ 0) : (float (.finite s u)).isZero = false := by
  have hsigned : Double.signed s u ≠ 0 := by
    cases s <;> simp only [Double.signed] <;> omega
  have hne : Point.units (Double.signed s u) ≠ .units (0 * Double.scale) := by
    rwa [Int.zero_mul, Ne, Point.units.injEq]
  exact decide_eq_false hne

/-- Rounding an integer makes no zero. -/
theorem isZero_ofInt {n : Int} (h : n ≠ 0) : (float (Double.ofInt n)).isZero = false := by
  have hunits : n.natAbs * Double.scale ≠ 0 :=
    Nat.mul_ne_zero (Int.natAbs_ne_zero.2 h) (Nat.ne_of_gt Double.scale_pos)
  have hne : ∀ s, Double.ofInt n ≠ .finite s 0 := Double.nearest_ne_zero hunits (n < 0)
  generalize Double.ofInt n = x at hne
  cases x with
  | nan => rfl
  | infinite s => cases s <;> rfl
  | finite s u =>
    refine isZero_finite fun hu => ?_
    subst hu
    exact hne s rfl

/-- What is rounded to a double is zero only if it was. -/
theorem isZero_toDouble {a : Number} {x : Double} (h : a.isZero = false)
    (hx : a.toDouble = .ok x) : (float x).isZero = false := by
  cases a with
  | float y =>
    obtain rfl := Except.ok.inj hx
    exact h
  | int n =>
    have hn := isZero_ofInt (isZero_int h)
    rw [toDouble] at hx
    rw [← Double.eq_of_orFault hx]
    exact hn

theorem toDouble_fault {a : Number} {f : ArithmeticFault} (h : a.toDouble = .error f) :
    f.isOverflow = true := by
  cases a with
  | float x => cases h
  | int n =>
    rw [toDouble] at h
    rw [Double.fault_of_orFault h]
    rfl

/-- Two numbers are rounded to doubles, or an integer among them is too large for one. -/
theorem toDoubles_cases (a b : Number) :
    (∃ x y, a.toDouble = .ok x ∧ b.toDouble = .ok y) ∨
      ∃ f : ArithmeticFault, f.isOverflow = true ∧
        ∀ g : Double → Double → Except ArithmeticFault Number,
          (do let x ← a.toDouble; let y ← b.toDouble; g x y) = .error f := by
  cases ha : a.toDouble with
  | error f => exact .inr ⟨f, toDouble_fault ha, fun _ => rfl⟩
  | ok x =>
    cases hb : b.toDouble with
    | error f => exact .inr ⟨f, toDouble_fault hb, fun _ => rfl⟩
    | ok y => exact .inl ⟨x, y, rfl, rfl⟩

variable {a b : Number} {f : ArithmeticFault}

theorem arith_fault {onInt : Int → Int → Int} {onDouble : Double → Double → Double}
    (h : arith onInt onDouble a b = .error f) : f.isOverflow = true := by
  unfold arith at h
  split at h
  · cases h
  · rcases toDoubles_cases a b with ⟨x, y, hx, hy⟩ | ⟨f', hf, hall⟩
    · rw [hx, hy] at h
      cases h
    · obtain rfl := Except.error.inj ((hall _).symm.trans h)
      exact hf

theorem foldlM_fault {g : Number → Number → Except ArithmeticFault Number}
    (hg : ∀ a b f, g a b = .error f → f.isOverflow = true) {ns : List Number} {n : Number}
    (h : ns.foldlM g n = .error f) : f.isOverflow = true := by
  induction ns generalizing n with
  | nil => cases h
  | cons m ns ih =>
    rw [List.foldlM_cons] at h
    cases hm : g n m with
    | error f' =>
      rw [hm] at h
      obtain rfl := Except.error.inj h
      exact hg n m _ hm
    | ok k =>
      rw [hm] at h
      exact ih h

theorem trueQuotient_fault {m n : Int} (h : trueQuotient m n = .error f) :
    f.isOverflow = true := by
  simp only [trueQuotient] at h
  generalize Double.nearest _ _ _ = x at h
  cases hx : x.orFault .quotient with
  | ok y =>
    rw [hx] at h
    cases h
  | error f' =>
    rw [hx] at h
    obtain rfl := Except.error.inj h
    obtain rfl := Double.fault_of_orFault hx
    rfl

/-- **A division by what is not zero breaks off only by an overflow.** -/
theorem div_fault (hb : b.isZero = false) (h : a.div b = .error f) : f.isOverflow = true := by
  unfold div at h
  split at h
  · next m n =>
    rw [if_neg (isZero_int hb)] at h
    split at h
    · cases h
    · exact trueQuotient_fault h
  · rcases toDoubles_cases a b with ⟨x, y, hx, hy⟩ | ⟨f', hf, hall⟩
    · have hy' := isZero_toDouble hb hy
      rw [hx, hy] at h
      simp only [bind, Except.bind, hy'] at h
      cases h
    · obtain rfl := Except.error.inj ((hall _).symm.trans h)
      exact hf

/-- By zero there is no quotient. -/
example : (int 1).div (int 0) = .error (.zeroDivisor false) := rfl

end Number

end Lambdict
