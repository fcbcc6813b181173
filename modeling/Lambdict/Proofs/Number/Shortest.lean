import Lambdict.Proofs.Number.Rounding
import Lambdict.Proofs.Reading.Atoms
import Mathlib.Tactic.LinearCombination

/-!
# Shortest decimals are read back

The decimal that is written for a double lies in the interval of the double (`Decimal.Reads`), so it
is rounded to the double when it is read.  There always is such a decimal (`Decimal.exists_onGrid`):
on the grid of seventeen digits one of the two points around a double is nearer to it than its
neighbours, for 2 ^ 53 is less than 10 ^ 16.

How a decimal is laid out does not matter.  Zeros at its end and the place of its point change the
coefficient and the exponent together (`Decimal.reads_shift`).  So the text of a double is read back
as the double (`Double.ofText?_text`).
-/

namespace Lambdict

theorem Double.tenPow_pos (k : Nat) : 0 < tenPow k :=
  Nat.pow_pos (by decide)

namespace Decimal

open Double (OnGrid twoPow gridShift scale)

/-! ## Decimals in the interval of a double -/

/-- **A decimal reads as a double** of so many units: `c * 10 ^ e` lies in the interval of the
double. -/
def Reads (u c : Nat) (e : Int) : Prop :=
  (interval u).holds (4 * (c * scale * (tenPow e).1)) (tenPow e).2 = true

theorem tenPow_natCast (k : Nat) : tenPow k = (Double.tenPow k, 1) := rfl

theorem tenPow_neg (k : Nat) : tenPow (-(k : Int)) = (1, Double.tenPow k) := by
  cases k <;> rfl

theorem tenPow_pos (e : Int) : 0 < (tenPow e).1 ∧ 0 < (tenPow e).2 := by
  cases e with
  | ofNat k => exact ⟨Double.tenPow_pos k, Nat.one_pos⟩
  | negSucc k => exact ⟨Nat.one_pos, Double.tenPow_pos (k + 1)⟩

/-- Powers of ten add their exponents. -/
theorem tenPow_add (k : Nat) (e : Int) :
    Double.tenPow k * (tenPow e).1 * (tenPow (e + k)).2 = (tenPow (e + k)).1 * (tenPow e).2 := by
  have hpow (m n : Nat) : Double.tenPow m * Double.tenPow n = Double.tenPow (m + n) :=
    (Nat.pow_add 10 m n).symm
  obtain ⟨m, rfl | rfl⟩ := Int.eq_nat_or_neg e
  · rw [← Int.natCast_add, tenPow_natCast, tenPow_natCast, hpow, Nat.add_comm k m]
  · rcases Nat.le_total m k with h | h
    · have hsum : -(m : Int) + k = ((k - m : Nat) : Int) := by omega
      rw [hsum, tenPow_neg, tenPow_natCast, hpow, Nat.mul_one, Nat.mul_one, Nat.sub_add_cancel h]
    · have hsum : -(m : Int) + k = -((m - k : Nat) : Int) := by omega
      rw [hsum, tenPow_neg, tenPow_neg, Nat.mul_one, Nat.one_mul, hpow, Nat.add_sub_cancel' h]

theorem cross_le {a num den num' den' : Nat} (hden : 0 < den) (hden' : 0 < den')
    (h : num * den' = num' * den) : a * den ≤ num ↔ a * den' ≤ num' := by
  rw [← Nat.mul_le_mul_right_iff hden', h, Nat.mul_right_comm, Nat.mul_le_mul_right_iff hden]

theorem cross_ge {a num den num' den' : Nat} (hden : 0 < den) (hden' : 0 < den')
    (h : num * den' = num' * den) : num ≤ a * den ↔ num' ≤ a * den' := by
  rw [← Nat.mul_le_mul_right_iff hden', h, Nat.mul_right_comm, Nat.mul_le_mul_right_iff hden]

/-- Quotients that are the same number lie in the same intervals. -/
theorem Interval.holds_congr (i : Interval) {num den num' den' : Nat} (hden : 0 < den)
    (hden' : 0 < den') (h : num * den' = num' * den) : i.holds num den = i.holds num' den' := by
  simp only [Interval.holds, ← Nat.not_le, cross_le hden hden' h, cross_ge hden hden' h]

/-- Zeros at the end of a coefficient count for its exponent. -/
theorem reads_shift (u c k : Nat) (e : Int) :
    Reads u (c * Double.tenPow k) e ↔ Reads u c (e + k) := by
  have hcross : 4 * (c * Double.tenPow k * scale * (tenPow e).1) * (tenPow (e + k)).2 =
      4 * (c * scale * (tenPow (e + k)).1) * (tenPow e).2 := by
    linear_combination 4 * c * scale * tenPow_add k e
  rw [Reads, Reads, (interval u).holds_congr (tenPow_pos e).2 (tenPow_pos (e + k)).2 hcross]

/-! ## Seventeen digits suffice -/

theorem le_scaleUp (bound k n : Nat) (h : bound ≤ n * Double.tenPow k) :
    bound ≤ n * Double.tenPow (scaleUp bound k n) := by
  induction k generalizing n with
  | zero => exact h
  | succ k ih =>
    have hpow (j : Nat) : n * Double.tenPow (j + 1) = 10 * n * Double.tenPow j := by
      change n * 10 ^ (j + 1) = 10 * n * 10 ^ j
      ring
    rw [scaleUp]
    split
    · next hn => exact Nat.le_trans hn (Nat.le_of_eq (Nat.mul_one n).symm)
    · rw [Nat.add_comm, hpow]
      exact ih (10 * n) (hpow k ▸ h)

/-- The first digit of a double stands at its leading place. -/
theorem tenPow_leading_le {u : Nat} (hu : 0 < u) :
    scale * (tenPow (leading u)).1 ≤ u * (tenPow (leading u)).2 := by
  unfold leading
  split
  · next h =>
    have hpos : 0 < u / scale := Nat.div_pos h Double.scale_pos
    generalize hds : Nat.toDigits 10 (u / scale) = ds
    have hne : ds ≠ [] := hds ▸ Nat.toDigits_ne_nil
    obtain ⟨k, hk⟩ : ∃ k, ds.length = k + 1 :=
      Nat.exists_eq_succ_of_ne_zero (fun h => hne (List.length_eq_zero_iff.1 h))
    have hpow : Double.tenPow k ≤ u / scale := by
      by_contra hlt
      rcases Nat.eq_zero_or_pos k with rfl | hkpos
      · exact hlt hpos
      · have hlen := (Nat.length_toDigits_le_iff (by decide) hkpos).2 (Nat.lt_of_not_le hlt)
        rw [hds] at hlen
        omega
    have hexp : ((ds.length : Nat) : Int) - 1 = (k : Int) := by omega
    rw [hexp, tenPow_natCast, Nat.mul_one, Nat.mul_comm]
    exact (Nat.le_div_iff_mul_le Double.scale_pos).1 hpow
  · have hscale : scale ≤ Double.tenPow 330 := by decide +kernel
    simp only [tenPow_neg, Nat.mul_one]
    exact le_scaleUp _ _ _ (Nat.le_trans hscale (Nat.le_mul_of_pos_left _ hu))

theorem Interval.holds_of_lt {i : Interval} {num den : Nat} (hlo : i.low * den < num)
    (hhi : num < i.high * den) : i.holds num den = true := by
  unfold Interval.holds
  split <;> simp [hlo, hhi, hlo.le, hhi.le]

/-- **Of the two points around a double on a grid of seventeen digits, one reads as the double.** -/
theorem floor_or_succ_holds {u den d : Nat} (hden : 0 < den) (hd : 0 < d)
    (hfine : 10 ^ 16 * den ≤ u * d) :
    (interval u).holds (4 * (u * d / den * den)) d = true ∨
      (interval u).holds (4 * ((u * d / den + 1) * den)) d = true := by
  have hmod := Nat.div_add_mod (u * d) den
  have hrest := Nat.mod_lt (u * d) hden
  rw [Nat.mul_comm] at hmod
  -- the grid is finer than that of the double
  have hwide : 2 * den < 2 * (twoPow (gridShift u) * d) := by
    have hlt : u < 2 ^ 53 * twoPow (gridShift u) := by
      have := Double.lt_twoPow_gridShift u
      rwa [Double.twoPow_add] at this
    have := Nat.mul_lt_mul_of_pos_right hlt hd
    rw [Nat.mul_assoc] at this
    omega
  have hlow : (interval u).low * d + 2 * den < 4 * (u * d) := by
    rcases interval_low u with ⟨hlow, -⟩ | ⟨hlow, -, hpow⟩
    · rw [hlow, Nat.sub_mul, Nat.mul_assoc, Nat.mul_assoc]
      omega
    · -- the double is a power of two, and the grid is finer than that below it
      have hhalf : 2 * den < twoPow (gridShift u) * d := by
        have hmul : u * d = 2 ^ 52 * (twoPow (gridShift u) * d) := by
          rw [← Nat.mul_assoc]
          exact congrArg (· * d) (hpow.trans (Double.twoPow_add 52 _))
        omega
      rw [hlow, Nat.sub_mul, Nat.mul_assoc]
      omega
  have hhigh : 4 * (u * d) + 2 * den < (interval u).high * d := by
    rw [interval_high, Nat.add_mul, Nat.mul_assoc, Nat.mul_assoc]
    omega
  rw [Nat.add_mul, Nat.one_mul]
  rcases Nat.le_total (2 * (u * d % den)) den with hnear | hnear
  · exact .inl (Interval.holds_of_lt (by omega) (by omega))
  · exact .inr (Interval.holds_of_lt (by omega) (by omega))

theorem reads_iff {u c : Nat} {e : Int} :
    Reads u c e ↔ (interval u).holds (4 * c * (scale * (tenPow e).1)) (tenPow e).2 = true := by
  rw [Reads, Nat.mul_assoc c, Nat.mul_assoc 4 c]

/-- A decimal that is found on a grid reads as the double. -/
theorem reads_of_onGrid? {u : Nat} {e : Int} {d : Decimal} (h : onGrid? u e = some d) :
    ∃ c, d = ofCoefficient c e ∧ Reads u c e := by
  simp only [reads_iff]
  unfold onGrid? at h
  dsimp only at h
  split at h
  · next hfloor hsucc =>
    split at h
    · exact ⟨_, (Option.some.inj h).symm, hfloor⟩
    · exact ⟨_, (Option.some.inj h).symm, hsucc⟩
  · next hfloor _ => exact ⟨_, (Option.some.inj h).symm, hfloor⟩
  · next _ hsucc => exact ⟨_, (Option.some.inj h).symm, hsucc⟩
  · cases h

/-- **Seventeen digits suffice.** -/
theorem exists_onGrid {u : Nat} (hu : 0 < u) : ∃ d, onGrid? u (leading u - 16) = some d := by
  obtain ⟨hup, hdown⟩ := tenPow_pos (leading u - 16)
  have hfine : 10 ^ 16 * (scale * (tenPow (leading u - 16)).1) ≤
      u * (tenPow (leading u - 16)).2 := by
    have hlead := Nat.mul_le_mul_right (tenPow (leading u - 16)).2 (tenPow_leading_le hu)
    have hadd := tenPow_add 16 (leading u - 16)
    rw [show leading u - 16 + (16 : Nat) = leading u by omega,
      show Double.tenPow 16 = 10 ^ 16 from rfl] at hadd
    refine Nat.le_of_mul_le_mul_right ?_ (tenPow_pos (leading u)).2
    calc 10 ^ 16 * (scale * (tenPow (leading u - 16)).1) * (tenPow (leading u)).2
        = scale * (tenPow (leading u)).1 * (tenPow (leading u - 16)).2 := by
          linear_combination scale * hadd
      _ ≤ u * (tenPow (leading u)).2 * (tenPow (leading u - 16)).2 := hlead
      _ = u * (tenPow (leading u - 16)).2 * (tenPow (leading u)).2 := Nat.mul_right_comm ..
  have hsome := floor_or_succ_holds (Nat.mul_pos Double.scale_pos hup) hdown hfine
  simp only [← Nat.mul_assoc 4] at hsome
  unfold onGrid?
  dsimp only
  split
  · split
    · exact ⟨_, rfl⟩
    · exact ⟨_, rfl⟩
  · exact ⟨_, rfl⟩
  · exact ⟨_, rfl⟩
  · next hfloor hsucc =>
    rw [hfloor, hsucc] at hsome
    simp at hsome

/-- **The shortest decimal of a double reads as the double.** -/
theorem shortest_reads {u : Nat} (hu : 0 < u) :
    ∃ c e, shortest u = ofCoefficient c e ∧ Reads u c e := by
  cases hfound : (List.range 17).findSome? fun (n : Nat) => onGrid? u (leading u - n) with
  | none =>
    obtain ⟨d, hd⟩ := exists_onGrid hu
    rw [List.findSome?_eq_none_iff] at hfound
    have hnone := hfound 16 (by simp)
    rw [show ((16 : Nat) : Int) = 16 from rfl, hd] at hnone
    cases hnone
  | some d =>
    obtain ⟨n, -, hd⟩ := List.exists_of_findSome?_eq_some hfound
    obtain ⟨c, hc, hreads⟩ := reads_of_onGrid? hd
    refine ⟨c, _, ?_, hreads⟩
    rw [shortest, hfound]
    exact hc

end Decimal

/-! ## Digits -/

theorem Text.digitsValue_append (as bs : List Char) :
    digitsValue (as ++ bs) = digitsValue as * Double.tenPow bs.length + digitsValue bs := by
  induction bs using List.reverseRecOn with
  | nil => simp [digitsValue, Double.tenPow]
  | append_singleton bs c ih =>
    have hstep (cs : List Char) :
        digitsValue (cs ++ [c]) = 10 * digitsValue cs + (digitValue? c).getD 0 := by
      simp [digitsValue]
    have hpow : Double.tenPow (bs ++ [c]).length = 10 * Double.tenPow bs.length := by
      rw [List.length_append, List.length_singleton]
      exact Nat.pow_succ'
    rw [← List.append_assoc, hstep, hstep, ih, hpow]
    ring

theorem Text.digitsValue_zeros (k : Nat) : digitsValue (List.replicate k '0') = 0 := by
  induction k with
  | zero => rfl
  | succ k ih =>
    rw [List.replicate_succ', digitsValue_append, ih]
    rfl

theorem isDigit_zeros (k : Nat) : ∀ c ∈ List.replicate k '0', c.isDigit = true := by
  intro c hc
  rw [List.eq_of_mem_replicate hc]
  rfl

namespace Decimal

/-- **A decimal whose digits are read as a double** of so many units. -/
structure ReadsAs (d : Decimal) (u : Nat) : Prop where
  digits : ∀ c ∈ d.digits, c.isDigit = true
  nonempty : d.digits ≠ []
  reads : Reads u (Text.digitsValue d.digits) (d.point - d.digits.length)

/-- The interval of a positive double is half a unit away from zero at least. -/
theorem two_le_low {u : Nat} (hu : 0 < u) : 2 ≤ (interval u).low := by
  have := Double.twoPow_gridShift_le (Nat.ne_of_gt hu)
  rcases interval_low u with ⟨hlow, -⟩ | ⟨hlow, -⟩ <;> omega

/-- What reads as a positive double is not zero. -/
theorem reads_pos {u c : Nat} {e : Int} (hu : 0 < u) (h : Reads u c e) : 0 < c := by
  refine Nat.pos_of_ne_zero ?_
  rintro rfl
  have hle := (interval_holds h).1
  have := Nat.mul_pos (Nat.lt_of_lt_of_le Nat.two_pos (two_le_low hu)) (tenPow_pos e).2
  simp only [Nat.zero_mul, Nat.mul_zero] at hle
  omega

/-- The digits of a coefficient without the zeros at its end. -/
theorem ofCoefficient_spec (c : Nat) (e : Int) :
    ∃ k : Nat, c = Text.digitsValue (ofCoefficient c e).digits * Double.tenPow k ∧
      (ofCoefficient c e).point - (ofCoefficient c e).digits.length = e + k := by
  set full := Nat.toDigits 10 c with hfull
  have hsplit : full = (ofCoefficient c e).digits ++
      List.replicate (full.reverse.takeWhile (· = '0')).length '0' := by
    have hzeros : full.reverse.takeWhile (· = '0') =
        List.replicate (full.reverse.takeWhile (· = '0')).length '0' :=
      List.eq_replicate_of_mem fun x hx => by simpa using List.mem_takeWhile_imp hx
    have happend := List.takeWhile_append_dropWhile (p := (· = '0')) (l := full.reverse)
    rw [hzeros] at happend
    have := congrArg List.reverse happend
    rw [List.reverse_append, List.reverse_reverse, List.reverse_replicate] at this
    exact this.symm
  refine ⟨(full.reverse.takeWhile (· = '0')).length, ?_, ?_⟩
  · have hvalue := congrArg Text.digitsValue hsplit
    rw [Text.digitsValue_append, Text.digitsValue_zeros, List.length_replicate, hfull,
      Text.digitsValue_toDigits] at hvalue
    exact hvalue
  · have hlen := congrArg List.length hsplit
    rw [List.length_append, List.length_replicate] at hlen
    change e + full.length - _ = _
    omega

theorem isDigit_ofCoefficient {c : Nat} {e : Int} :
    ∀ x ∈ (ofCoefficient c e).digits, x.isDigit = true := by
  intro x hx
  have hmem : x ∈ (Nat.toDigits 10 c).reverse :=
    (List.dropWhile_sublist _).subset (List.mem_reverse.1 hx)
  exact isDigit_of_mem_digits (List.mem_reverse.1 hmem)

/-- **The shortest decimal of a double is read as the double.** -/
theorem shortest_readsAs {u : Nat} (hu : 0 < u) : (shortest u).ReadsAs u := by
  obtain ⟨c, e, hshort, hreads⟩ := shortest_reads hu
  obtain ⟨k, hc, hpoint⟩ := ofCoefficient_spec c e
  rw [hshort]
  refine ⟨isDigit_ofCoefficient, fun hnil => ?_, ?_⟩
  · have hpos := reads_pos hu hreads
    rw [hc, hnil] at hpos
    simp [Text.digitsValue] at hpos
  · rw [hpoint, ← reads_shift, ← hc]
    exact hreads

end Decimal

end Lambdict
