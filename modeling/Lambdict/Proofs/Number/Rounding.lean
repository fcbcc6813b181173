import Lambdict.Number.Shortest
import Lambdict.Proofs.Number.Arithmetic
import Mathlib.Tactic.Ring

/-!
# Rounding to the grid

A finite double lies on the grid of its size, below the limit (`Double.OnGrid`), and what is rounded
comes to lie there (`Double.nearest_representable`).

The reals that round to a double form an interval around it (`Decimal.interval`).  Whatever lies in
it is rounded to the double (`Decimal.nearest_of_holds`).  Below a power of two the grid is finer by
half.  So a quotient that lies there is rounded on another grid than the double's own, and this is
the one case that needs care.
-/

namespace Lambdict

namespace Double

/-! ## Grids -/

theorem twoPow_succ (n : Nat) : twoPow (n + 1) = 2 * twoPow n :=
  Nat.pow_succ'

theorem twoPow_add (m n : Nat) : twoPow (m + n) = twoPow m * twoPow n :=
  Nat.pow_add 2 m n

theorem lt_twoPow_gridShift (u : Nat) : u < twoPow (53 + gridShift u) :=
  Nat.lt_of_lt_of_le Nat.lt_log2_self
    (Nat.pow_le_pow_right (by decide) (by unfold gridShift; omega))

theorem twoPow_le_of_gridShift_pos {u : Nat} (h : 0 < gridShift u) :
    twoPow (52 + gridShift u) ≤ u := by
  have hlog : 52 + gridShift u = u.log2 := by
    unfold gridShift at *
    omega
  have hu : u ≠ 0 := by
    rintro rfl
    exact absurd h (by decide)
  rw [hlog]
  exact Nat.log2_self_le hu

theorem gridShift_le {u k : Nat} (h : u < twoPow (53 + k)) : gridShift u ≤ k := by
  by_cases hu : u = 0
  · subst hu
    exact Nat.zero_le k
  · have hlog : u.log2 < 53 + k := (Nat.log2_lt hu).2 h
    unfold gridShift
    omega

/-- The grid of a size is told by the two powers of two around it. -/
theorem gridShift_eq {u k : Nat} (hhi : u < twoPow (53 + k))
    (hlo : 0 < k → twoPow (52 + k) ≤ u) : gridShift u = k := by
  refine Nat.le_antisymm (gridShift_le hhi) ?_
  by_cases hk : 0 < k
  · have hpow := hlo hk
    have hu : u ≠ 0 := Nat.ne_of_gt (Nat.lt_of_lt_of_le (twoPow_pos _) hpow)
    have hlog : 52 + k ≤ u.log2 := (Nat.le_log2 hu).2 hpow
    unfold gridShift
    omega
  · omega

/-- **What a finite double is**: a multiple of the step of its grid, below the limit. -/
def OnGrid (u : Nat) : Prop :=
  twoPow (gridShift u) ∣ u ∧ u < limit

/-- **A double-precision number**: if it is finite, it lies on its grid. -/
inductive Representable : Double → Prop
  | nan : Representable .nan
  | infinite (negative : Bool) : Representable (.infinite negative)
  | finite (negative : Bool) {u : Nat} (h : OnGrid u) : Representable (.finite negative u)

theorem roundHalfEven_le (num den : Nat) : roundHalfEven num den ≤ num / den + 1 := by
  unfold roundHalfEven
  dsimp only
  split
  · omega
  · split <;> omega

theorem onGrid_zero : OnGrid 0 :=
  ⟨Nat.dvd_zero _, twoPow_pos 2098⟩

/-- The number that rounding comes to, which may be too large for a finite double. -/
def roundedUnits (num den : Nat) : Nat :=
  roundHalfEven num (den * twoPow (gridShift (num / den))) * twoPow (gridShift (num / den))

theorem nearest_cases (negative : Bool) (num den : Nat) :
    (roundedUnits num den < limit ∧
        nearest negative num den = .finite negative (roundedUnits num den)) ∨
      (limit ≤ roundedUnits num den ∧ nearest negative num den = .infinite negative) := by
  unfold nearest roundedUnits
  dsimp only
  split
  · next h => exact .inl ⟨h, rfl⟩
  · next h => exact .inr ⟨Nat.le_of_not_lt h, rfl⟩

/-- **What is rounded is a double-precision number.** -/
theorem nearest_representable (negative : Bool) (num den : Nat) :
    (nearest negative num den).Representable := by
  set k := gridShift (num / den) with hk
  set m := roundHalfEven num (den * twoPow k) with hm
  have hquotient : num / (den * twoPow k) < twoPow 53 := by
    rw [← Nat.div_div_eq_div_mul, Nat.div_lt_iff_lt_mul (twoPow_pos k), ← twoPow_add]
    exact lt_twoPow_gridShift _
  have hround : m ≤ twoPow 53 := Nat.le_trans (roundHalfEven_le ..) hquotient
  cases nearest_cases negative num den with
  | inl h =>
    rw [h.2]
    refine .finite negative ⟨?_, h.1⟩
    rw [show roundedUnits num den = m * twoPow k from rfl]
    rcases Nat.lt_or_eq_of_le hround with hlt | heq
    · -- no digit too many, so the grid of the result is not wider
      have hgrid : gridShift (m * twoPow k) ≤ k := by
        refine gridShift_le ?_
        rw [twoPow_add]
        exact Nat.mul_lt_mul_of_pos_right hlt (twoPow_pos k)
      exact Nat.dvd_trans (Nat.pow_dvd_pow 2 hgrid) (Nat.dvd_mul_left ..)
    · have hgrid : gridShift (m * twoPow k) ≤ 53 + k := by
        refine gridShift_le ?_
        rw [heq, ← twoPow_add]
        exact Nat.pow_lt_pow_right (by decide) (by omega)
      rw [heq, ← twoPow_add] at hgrid ⊢
      exact Nat.pow_dvd_pow 2 hgrid
  | inr h =>
    rw [h.2]
    exact .infinite negative

theorem ofScientific_representable (negative : Bool) (coefficient : Nat) (exponent : Int) :
    (ofScientific negative coefficient exponent).Representable := by
  unfold ofScientific
  split
  · exact nearest_representable _ _ _
  · exact nearest_representable _ _ _

/-! ## The interval of a double -/

/-- A quotient is rounded to a whole number from which it lies at most a half; from an odd one, less
than a half. -/
theorem roundHalfEven_eq {num den q : Nat} (hden : 0 < den) (hlo : 2 * (q * den) ≤ 2 * num + den)
    (hhi : 2 * num ≤ 2 * (q * den) + den)
    (htie : q % 2 = 1 → 2 * (q * den) < 2 * num + den ∧ 2 * num < 2 * (q * den) + den) :
    roundHalfEven num den = q := by
  have hdiv := Nat.div_add_mod num den
  have hmod := Nat.mod_lt num hden
  rw [Nat.mul_comm] at hdiv
  unfold roundHalfEven
  dsimp only
  set f := num / den
  set r := num % den
  -- the number lies between `f` and `f + 1`, so it is one of them
  have hf : f = q ∨ f + 1 = q := by
    have hle : f * den < (q + 1) * den := by
      rw [Nat.add_mul]
      omega
    have hge : q * den < (f + 2) * den := by
      rw [Nat.add_mul]
      omega
    have := Nat.lt_of_mul_lt_mul_right hle
    have := Nat.lt_of_mul_lt_mul_right hge
    omega
  rcases hf with rfl | rfl
  · split
    · rfl
    · split
      · omega
      · have : f % 2 ≠ 1 := fun h => by have := htie h; omega
        omega
  · rw [Nat.add_mul] at hlo hhi htie
    split
    · omega
    · split
      · rfl
      · have : (f + 1) % 2 ≠ 1 := fun h => by have := htie h; omega
        omega

end Double

namespace Decimal

open Double (OnGrid twoPow gridShift nearest roundedUnits nearest_cases)

/-- Between two multiples lies a step at least. -/
theorem add_step_le {m n step : Nat} (hm : step ∣ m) (hn : step ∣ n) (h : m < n) :
    m + step ≤ n := by
  have := Nat.le_of_dvd (Nat.sub_pos_of_lt h) (Nat.dvd_sub hn hm)
  omega

/-- The interval of a double begins half a step below it, or a quarter below a power of two. -/
theorem interval_low (u : Nat) :
    ((interval u).low = 4 * u - 2 * twoPow (gridShift u) ∧
        (0 < gridShift u → u ≠ twoPow (52 + gridShift u))) ∨
      ((interval u).low = 4 * u - twoPow (gridShift u) ∧
        0 < gridShift u ∧ u = twoPow (52 + gridShift u)) := by
  unfold interval
  dsimp only
  split
  · next h => exact .inr ⟨rfl, h⟩
  · next h => exact .inl ⟨rfl, fun hpos heq => h ⟨hpos, heq⟩⟩

theorem interval_high (u : Nat) :
    (interval u).high = 4 * u + 2 * twoPow (gridShift u) := rfl

theorem interval_holds {u num den : Nat} (h : (interval u).holds num den = true) :
    (interval u).low * den ≤ num ∧ num ≤ (interval u).high * den ∧
      ((u / twoPow (gridShift u)) % 2 = 1 →
        (interval u).low * den < num ∧ num < (interval u).high * den) := by
  unfold Interval.holds at h
  split at h
  · next hclosed =>
    simp only [Bool.and_eq_true, decide_eq_true_eq] at h
    have : u / twoPow (gridShift u) % 2 = 0 := by simpa [interval] using hclosed
    exact ⟨h.1, h.2, fun hodd => by omega⟩
  · simp only [Bool.and_eq_true, decide_eq_true_eq] at h
    exact ⟨h.1.le, h.2.le, fun _ => h⟩

variable {u num den : Nat}

/-- What lies in the interval of a double is below the next power of two, which is a step away at
least. -/
theorem div_lt_of_holds (hden : 0 < den) (hu : OnGrid u)
    (h : (interval u).holds (4 * num) den = true) : num / den < twoPow (53 + gridShift u) := by
  obtain ⟨-, hhi, -⟩ := interval_holds h
  have hgrid := hu.1
  have hlt := Double.lt_twoPow_gridShift u
  rw [interval_high] at hhi
  generalize gridShift u = k at *
  have hS : 0 < twoPow k * den := Nat.mul_pos (Double.twoPow_pos k) hden
  have hnext : u + twoPow k ≤ twoPow (53 + k) :=
    add_step_le hgrid (Nat.pow_dvd_pow 2 (by omega)) hlt
  rw [Nat.div_lt_iff_lt_mul hden]
  have := Nat.mul_le_mul_right den hnext
  simp only [Nat.add_mul, Nat.mul_assoc] at this hhi
  omega

/-- What lies in the interval of a double that is no power of two is not below the last power of
two. -/
theorem le_div_of_holds (hden : 0 < den) (hu : OnGrid u) (hk : 0 < gridShift u)
    (hne : u ≠ twoPow (52 + gridShift u)) (h : (interval u).holds (4 * num) den = true) :
    twoPow (52 + gridShift u) ≤ num / den := by
  obtain ⟨hlo, -, -⟩ := interval_holds h
  have hgrid := hu.1
  have hle := Double.twoPow_le_of_gridShift_pos hk
  obtain ⟨hlow, -⟩ := (interval_low u).resolve_right fun hpow => hne hpow.2.2
  rw [hlow] at hlo
  generalize gridShift u = k at *
  have hstep : twoPow k ∣ twoPow (52 + k) := Nat.pow_dvd_pow 2 (by omega)
  have hnext : twoPow (52 + k) + twoPow k ≤ u :=
    add_step_le hstep hgrid (Nat.lt_of_le_of_ne hle (Ne.symm hne))
  rw [Nat.le_div_iff_mul_le hden]
  have := Nat.mul_le_mul_right den hnext
  simp only [Nat.add_mul, Nat.sub_mul, Nat.mul_assoc] at this hlo
  omega

/-- What lies in the interval of a power of two, but below it, has a grid that is finer by half. -/
theorem gridShift_below_of_holds (hden : 0 < den) (hk : 0 < gridShift u)
    (hpow : u = twoPow (52 + gridShift u)) (h : (interval u).holds (4 * num) den = true)
    (hlt : num / den < u) : gridShift u = gridShift (num / den) + 1 := by
  obtain ⟨hlo, -, -⟩ := interval_holds h
  obtain ⟨hlow, -⟩ := (interval_low u).resolve_left fun hleft => hleft.2 hk hpow
  rw [hlow] at hlo
  generalize gridShift u = k at *
  obtain ⟨j, rfl⟩ : ∃ j, k = j + 1 := ⟨k - 1, by omega⟩
  have hhalf : u = 2 * twoPow (52 + j) := by
    rw [hpow, ← Double.twoPow_succ]
    rfl
  have hshort : twoPow (j + 1) ≤ twoPow (52 + j) := Nat.pow_le_pow_right (by decide) (by omega)
  have hbelow : num / den < twoPow (53 + j) := by
    rwa [show 53 + j = 52 + (j + 1) by omega, ← hpow]
  have habove : twoPow (52 + j) ≤ num / den := by
    rw [Nat.le_div_iff_mul_le hden]
    have := Nat.mul_le_mul_right den hshort
    rw [hhalf] at hlo
    simp only [Nat.sub_mul, Nat.mul_assoc] at hlo
    omega
  rw [Double.gridShift_eq hbelow fun _ => habove]

/-- What lies in the interval of a double is rounded on the grid of the double, or on the finer grid
below it if the double is a power of two. -/
theorem gridShift_of_holds (hden : 0 < den) (hu : OnGrid u)
    (h : (interval u).holds (4 * num) den = true) :
    gridShift (num / den) = gridShift u ∨
      (gridShift u = gridShift (num / den) + 1 ∧ u = twoPow (52 + gridShift u) ∧
        num / den < u) := by
  have hbelow := div_lt_of_holds hden hu h
  by_cases habove : 0 < gridShift u → twoPow (52 + gridShift u) ≤ num / den
  · exact .inl (Double.gridShift_eq hbelow habove)
  · obtain ⟨hk, hlt⟩ := Classical.not_imp.1 habove
    have hpow : u = twoPow (52 + gridShift u) := by
      by_contra hne
      exact hlt (le_div_of_holds hden hu hk hne h)
    have hlt : num / den < u := hpow ▸ Nat.lt_of_not_le hlt
    exact .inr ⟨gridShift_below_of_holds hden hk hpow h hlt, hpow, hlt⟩

/-- A number in the interval of a double that is rounded on its grid is rounded to it. -/
theorem roundedUnits_of_gridShift_eq (hden : 0 < den) (hu : OnGrid u)
    (h : (interval u).holds (4 * num) den = true) (hk : gridShift (num / den) = gridShift u) :
    roundedUnits num den = u := by
  obtain ⟨hlo, hhi, htie⟩ := interval_holds h
  rw [interval_high] at hhi htie
  have hlow := interval_low u
  have hgrid := hu.1
  generalize (interval u).low = low at hlo htie hlow
  have hhalf : 4 * u - 2 * twoPow (gridShift u) ≤ low := by
    rcases hlow with ⟨hlow, -⟩ | ⟨hlow, -⟩ <;> omega
  rw [roundedUnits, hk]
  generalize gridShift u = k at *
  obtain ⟨m, rfl⟩ := hgrid
  have hpos : 0 < den * twoPow k := Nat.mul_pos hden (Double.twoPow_pos k)
  have hbound := Nat.mul_le_mul_right den hhalf
  have hprod : m * (den * twoPow k) = twoPow k * m * den := by ring
  have hstep : den * twoPow k = twoPow k * den := Nat.mul_comm ..
  rw [Nat.mul_div_cancel_left m (Double.twoPow_pos k)] at htie
  simp only [Nat.sub_mul, Nat.add_mul, Nat.mul_assoc 4, Nat.mul_assoc 2] at hbound hhi htie
  have hround : Double.roundHalfEven num (den * twoPow k) = m := by
    refine Double.roundHalfEven_eq hpos (by omega) (by omega) fun hodd => ?_
    have := htie hodd
    omega
  rw [hround]
  exact Nat.mul_comm ..

/-- A number in the interval of a power of two that is rounded on the finer grid is rounded to the
power. -/
theorem roundedUnits_of_gridShift_succ (hden : 0 < den)
    (h : (interval u).holds (4 * num) den = true) (hk : gridShift u = gridShift (num / den) + 1)
    (hpow : u = twoPow (52 + gridShift u)) (hlt : num / den < u) : roundedUnits num den = u := by
  obtain ⟨hlo, -, -⟩ := interval_holds h
  obtain ⟨hlow, -⟩ := (interval_low u).resolve_left fun hleft =>
    hleft.2 (hk ▸ Nat.succ_pos _) hpow
  rw [hlow] at hlo
  rw [roundedUnits]
  generalize gridShift (num / den) = j at *
  rw [hk] at hlo hpow
  have hunits : u = twoPow 53 * twoPow j := by
    rw [hpow, ← Double.twoPow_add]
    congr 1
    omega
  have hpos : 0 < den * twoPow j := Nat.mul_pos hden (Double.twoPow_pos j)
  have hprod : twoPow 53 * (den * twoPow j) = u * den := by
    rw [hunits]
    ring
  have hstep : den * twoPow j = twoPow j * den := Nat.mul_comm ..
  rw [Nat.div_lt_iff_lt_mul hden] at hlt
  simp only [Double.twoPow_succ, Nat.sub_mul, Nat.mul_assoc] at hlo
  have heven : twoPow 53 % 2 ≠ 1 := by decide
  have hround : Double.roundHalfEven num (den * twoPow j) = twoPow 53 :=
    Double.roundHalfEven_eq hpos (by omega) (by omega) fun hodd => absurd hodd heven
  rw [hround]
  exact hunits.symm

/-- What lies in the interval of a double is rounded to the units of the double. -/
theorem roundedUnits_of_holds (hden : 0 < den) (hu : OnGrid u)
    (h : (interval u).holds (4 * num) den = true) : roundedUnits num den = u := by
  rcases gridShift_of_holds hden hu h with hk | ⟨hk, hpow, hlt⟩
  · exact roundedUnits_of_gridShift_eq hden hu h hk
  · exact roundedUnits_of_gridShift_succ hden h hk hpow hlt

/-- **What lies in the interval of a double is rounded to it.** -/
theorem nearest_of_holds (negative : Bool) (hden : 0 < den) (hu : OnGrid u)
    (h : (interval u).holds (4 * num) den = true) :
    nearest negative num den = .finite negative u := by
  have hunits := roundedUnits_of_holds hden hu h
  cases nearest_cases negative num den with
  | inl hcase => rw [hcase.2, hunits]
  | inr hcase => exact absurd (hunits ▸ hcase.1) (Nat.not_le_of_lt hu.2)

end Decimal

end Lambdict
