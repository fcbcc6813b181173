import Lambdict.Proofs.Number.Shortest

/-!
# The text of a double

The text of a double is read back as the double (`Double.ofText?_text`), and that of a finite one is
a numeral that denotes it (`Double.parse?_text`).
-/

namespace Lambdict

namespace Decimal

open Double (OnGrid scale)

variable {u c : Nat} {e : Int}

/-- What reads as a double is rounded to it. -/
theorem Reads.ofScientific (negative : Bool) (h : Reads u c e) (hu : OnGrid u) :
    Double.ofScientific negative c e = .finite negative u := by
  have hround := nearest_of_holds negative (tenPow_pos e).2 hu h
  cases e with
  | ofNat k => rwa [Double.ofScientific, Nat.mul_right_comm]
  | negSucc k => rwa [show (tenPow (.negSucc k)).1 = 1 from rfl, Nat.mul_one] at hround

theorem lt_tenPow_length (c : Nat) : c < Double.tenPow (Nat.toDigits 10 c).length :=
  (Nat.length_toDigits_le_iff (by decide) Nat.length_toDigits_pos).1 (Nat.le_refl _)

theorem tenPow_le_of_length (hc : 0 < c) {k : Nat} (h : k < (Nat.toDigits 10 c).length) :
    Double.tenPow k ≤ c := by
  by_contra hlt
  rcases Nat.eq_zero_or_pos k with rfl | hk
  · exact hlt hc
  · have := (Nat.length_toDigits_le_iff (b := 10) (by decide) hk).2 (Nat.lt_of_not_le hlt)
    omega

theorem tenPow_mul (j k : Nat) : Double.tenPow j * Double.tenPow k = Double.tenPow (j + k) :=
  (Nat.pow_add 10 j k).symm

/-- A decimal far down is small. -/
theorem mul_tenPow_lt (h : e + (Nat.toDigits 10 c).length < -400) :
    c * (tenPow e).1 * Double.tenPow 401 < (tenPow e).2 := by
  obtain ⟨m, rfl | rfl⟩ := Int.eq_nat_or_neg e
  · omega
  · simp only [tenPow_neg, Nat.mul_one]
    calc c * Double.tenPow 401
        < Double.tenPow (Nat.toDigits 10 c).length * Double.tenPow 401 :=
          Nat.mul_lt_mul_of_pos_right (lt_tenPow_length c) (Double.tenPow_pos _)
      _ = Double.tenPow ((Nat.toDigits 10 c).length + 401) := tenPow_mul ..
      _ ≤ Double.tenPow m := Double.tenPow_le (by omega)

/-- A decimal far up is large. -/
theorem tenPow_mul_le (hc : 0 < c) (h : 400 < e + (Nat.toDigits 10 c).length) :
    Double.tenPow 400 * (tenPow e).2 ≤ c * (tenPow e).1 := by
  have hlen : 0 < (Nat.toDigits 10 c).length := Nat.length_toDigits_pos
  obtain ⟨m, rfl | rfl⟩ := Int.eq_nat_or_neg e
  · simp only [tenPow_natCast, Nat.mul_one]
    calc Double.tenPow 400
        ≤ Double.tenPow ((Nat.toDigits 10 c).length - 1 + m) := Double.tenPow_le (by omega)
      _ = Double.tenPow ((Nat.toDigits 10 c).length - 1) * Double.tenPow m := (tenPow_mul ..).symm
      _ ≤ c * Double.tenPow m :=
          Nat.mul_le_mul_right _ (tenPow_le_of_length hc (by omega))
  · simp only [tenPow_neg, Nat.mul_one, tenPow_mul]
    exact tenPow_le_of_length hc (by omega)

/-- What reads as a double is no smaller than a tenth to the four hundredth. -/
theorem Reads.place_ge (h : Reads u c e) (hu : 0 < u) :
    -400 ≤ e + (Nat.toDigits 10 c).length := by
  by_contra hlt
  have hsmall := mul_tenPow_lt (Int.lt_of_not_ge hlt)
  have hlow := (interval_holds h).1
  have hle : 2 * (tenPow e).2 ≤ (interval u).low * (tenPow e).2 :=
    Nat.mul_le_mul_right _ (two_le_low hu)
  have hscale : 2 * scale ≤ Double.tenPow 401 := by decide +kernel
  have := Nat.mul_le_mul_left (c * (tenPow e).1) hscale
  rw [Nat.mul_right_comm c] at hlow
  rw [Nat.mul_left_comm] at this
  omega

/-- What reads as a double is smaller than ten to the four hundredth. -/
theorem Reads.place_le (h : Reads u c e) (hu : 0 < u) (hgrid : OnGrid u) :
    e + (Nat.toDigits 10 c).length ≤ 400 := by
  by_contra hlt
  have hlarge := tenPow_mul_le (reads_pos hu h) (Int.lt_of_not_ge hlt)
  have hhigh : (interval u).high ≤ 8 * Double.limit := by
    have := Double.twoPow_gridShift_le (Nat.ne_of_gt hu)
    have := hgrid.2
    rw [interval_high]
    omega
  have hlimit : 8 * Double.limit < 4 * (Double.tenPow 400 * scale) := by decide +kernel
  refine absurd (interval_holds h).2.1 (Nat.not_le_of_lt ?_)
  calc (interval u).high * (tenPow e).2
      ≤ 8 * Double.limit * (tenPow e).2 := Nat.mul_le_mul_right _ hhigh
    _ < 4 * (Double.tenPow 400 * scale) * (tenPow e).2 :=
        Nat.mul_lt_mul_of_pos_right hlimit (tenPow_pos e).2
    _ = 4 * (Double.tenPow 400 * (tenPow e).2 * scale) := by ring
    _ ≤ 4 * (c * (tenPow e).1 * scale) :=
        Nat.mul_le_mul_left 4 (Nat.mul_le_mul_right scale hlarge)
    _ = 4 * (c * scale * (tenPow e).1) := by rw [Nat.mul_right_comm]

/-! ## Decimals in two layouts -/

/-- **The parts of a decimal** in a layout: digits before and after a point, and an exponent.  There
may be more zeros at the end, for which the exponent is smaller. -/
structure Parts (d : Decimal) (whole fraction : List Char) (e : Int) : Prop where
  isDigit_whole : ∀ c ∈ whole, c.isDigit = true
  nonempty : whole ≠ []
  isDigit_fraction : ∀ c ∈ fraction, c.isDigit = true
  value : ∃ k : Nat,
    Text.digitsValue (whole ++ fraction) = Text.digitsValue d.digits * Double.tenPow k ∧
      e - fraction.length + k = d.point - d.digits.length

/-- Parts with the digits of the decimal and no zeros at their end. -/
theorem Parts.of_value_eq {d : Decimal} {whole fraction : List Char} {e : Int}
    (hwhole : ∀ c ∈ whole, c.isDigit = true) (hne : whole ≠ [])
    (hfraction : ∀ c ∈ fraction, c.isDigit = true)
    (hvalue : Text.digitsValue (whole ++ fraction) = Text.digitsValue d.digits)
    (hplace : e - fraction.length = d.point - d.digits.length) : d.Parts whole fraction e :=
  ⟨hwhole, hne, hfraction, 0, hvalue.trans (Nat.mul_one _).symm, by simpa using hplace⟩

/-- Zeros in front of digits count for nothing. -/
theorem digitsValue_zeros_append (k : Nat) (ds : List Char) :
    Text.digitsValue (List.replicate k '0' ++ ds) = Text.digitsValue ds := by
  rw [Text.digitsValue_append, Text.digitsValue_zeros, Nat.zero_mul, Nat.zero_add]

variable {ds : List Char}

/-- A decimal below one. -/
theorem parts_below_one {p : Nat} (hd : ∀ c ∈ ds, c.isDigit = true) :
    Parts ⟨ds, -(p : Int)⟩ ['0'] (List.replicate p '0' ++ ds) 0 := by
  refine .of_value_eq (isDigit_zeros 1) (by simp)
    (List.forall_mem_append.2 ⟨isDigit_zeros _, hd⟩) ?_ ?_
  · rw [← List.append_assoc, show ['0'] = List.replicate 1 '0' from rfl,
      List.replicate_append_replicate, digitsValue_zeros_append]
  · simp only [List.length_append, List.length_replicate]
    omega

/-- A decimal with digits on both sides of the point. -/
theorem parts_split {p : Nat} (hd : ∀ c ∈ ds, c.isDigit = true) (hp : p ≠ 0)
    (hlt : p < ds.length) : Parts ⟨ds, p⟩ (ds.take p) (ds.drop p) 0 := by
  refine .of_value_eq (fun c hc => hd c (List.mem_of_mem_take hc)) ?_
    (fun c hc => hd c (List.mem_of_mem_drop hc)) ?_ ?_
  · have hne : ds ≠ [] := List.length_pos_iff.1 (Nat.zero_lt_of_lt hlt)
    simp [hp, hne]
  · rw [List.take_append_drop]
  · rw [List.length_drop]
    dsimp only
    omega

/-- A decimal that is a whole number. -/
theorem parts_whole {p : Nat} (hd : ∀ c ∈ ds, c.isDigit = true) (hne : ds ≠ [])
    (hle : ds.length ≤ p) :
    Parts ⟨ds, p⟩ (ds ++ List.replicate (p - ds.length) '0') ['0'] 0 := by
  refine ⟨List.forall_mem_append.2 ⟨hd, isDigit_zeros _⟩, by simp [hne], isDigit_zeros 1,
    p - ds.length + 1, ?_, ?_⟩
  · rw [List.append_assoc, show ['0'] = List.replicate 1 '0' from rfl,
      List.replicate_append_replicate, Text.digitsValue_append, Text.digitsValue_zeros,
      List.length_replicate, Nat.add_zero]
  · simp only [List.length_singleton]
    omega

variable {d : Decimal}

/-- A decimal that is written out. -/
theorem positional_parts (hd : ∀ c ∈ d.digits, c.isDigit = true) (hne : d.digits ≠ []) :
    ∃ whole fraction, d.Parts whole fraction 0 ∧ d.positional = whole ++ '.' :: fraction := by
  obtain ⟨ds, point⟩ := d
  dsimp only at hd hne
  cases point with
  | negSucc p => exact ⟨_, _, parts_below_one (p := p + 1) hd, by simp [positional]⟩
  | ofNat p =>
    by_cases hp : p = 0
    · subst hp
      exact ⟨_, _, parts_below_one (p := 0) hd, by simp [positional, hne]⟩
    by_cases hlt : p < ds.length
    · have hdrop : ds.drop p ≠ [] := by simpa using hlt
      exact ⟨_, _, parts_split hd hp hlt, by
        simp [positional, hp, hdrop, Nat.sub_eq_zero_of_le hlt.le]⟩
    · have hle : ds.length ≤ p := Nat.le_of_not_lt hlt
      exact ⟨_, _, parts_whole hd hne hle, by
        simp [positional, hp, List.drop_of_length_le hle, List.take_of_length_le hle]⟩

/-- A decimal with its exponent. -/
theorem exponential_parts (hd : ∀ c ∈ d.digits, c.isDigit = true) (hne : d.digits ≠ []) :
    d.Parts (d.digits.take 1) (d.digits.drop 1) (d.point - 1) := by
  refine .of_value_eq (fun c hc => hd c (List.mem_of_mem_take hc)) (by simp [hne])
    (fun c hc => hd c (List.mem_of_mem_drop hc)) ?_ ?_
  · rw [List.take_append_drop]
  · have hlen : 0 < d.digits.length := List.length_pos_iff.2 hne
    rw [List.length_drop]
    omega

/-- The parts of a decimal read as what the decimal reads as. -/
theorem Parts.reads {whole fraction : List Char} {u : Nat} {e : Int}
    (h : d.Parts whole fraction e) (hd : d.ReadsAs u) :
    Reads u (Text.digitsValue (whole ++ fraction)) (e - fraction.length) := by
  obtain ⟨k, hvalue, hplace⟩ := h.value
  rw [hvalue, reads_shift, hplace]
  exact hd.reads

/-! ## The characters of a decimal -/

/-- A character of a numeral: a digit, or what may stand among the digits. -/
def IsNumeralChar (c : Char) : Prop := c.isDigit = true ∨ c ∈ ['.', 'e', '+', '-']

theorem exponential_chars {width : Nat} (hd : ∀ c ∈ d.digits, c.isDigit = true) :
    ∀ c ∈ d.exponential width, IsNumeralChar c := by
  intro c hc
  unfold exponential at hc
  simp only [List.mem_append, List.mem_cons] at hc
  rcases hc with (hc | hc) | rfl | rfl | hc | hc
  · exact .inl (hd c (List.mem_of_mem_take hc))
  · split at hc
    · cases hc
    · rcases List.mem_cons.1 hc with rfl | hc
      · exact .inr (by simp)
      · exact .inl (hd c (List.mem_of_mem_drop hc))
  · exact .inr (by simp)
  · split <;> exact .inr (by simp)
  · exact .inl (isDigit_zeros _ c hc)
  · exact .inl (isDigit_of_mem_digits hc)

theorem write_chars (l : Layout) (hd : ∀ c ∈ d.digits, c.isDigit = true) (hne : d.digits ≠ []) :
    ∀ c ∈ d.write l, IsNumeralChar c := by
  intro c hc
  unfold write at hc
  split at hc
  · obtain ⟨whole, fraction, hparts, htext⟩ := positional_parts hd hne
    rw [htext, List.mem_append, List.mem_cons] at hc
    rcases hc with hc | rfl | hc
    · exact .inl (hparts.isDigit_whole c hc)
    · exact .inr (by simp)
    · exact .inl (hparts.isDigit_fraction c hc)
  · exact exponential_chars hd c hc

/-- A decimal begins with a digit. -/
theorem write_head (l : Layout) (hd : ∀ c ∈ d.digits, c.isDigit = true) (hne : d.digits ≠ []) :
    ∃ c cs, d.write l = c :: cs ∧ c.isDigit = true := by
  have hhead {whole rest : List Char} (hwhole : whole ≠ []) (h : ∀ c ∈ whole, c.isDigit = true) :
      ∃ c cs, whole ++ rest = c :: cs ∧ c.isDigit = true := by
    obtain ⟨c, cs, rfl⟩ := List.exists_cons_of_ne_nil hwhole
    exact ⟨c, cs ++ rest, rfl, h c (List.mem_cons_self ..)⟩
  unfold write
  split
  · obtain ⟨whole, fraction, hparts, htext⟩ := positional_parts hd hne
    rw [htext]
    exact hhead hparts.nonempty hparts.isDigit_whole
  · have hparts := exponential_parts hd hne
    unfold exponential
    dsimp only
    rw [List.append_assoc]
    exact hhead hparts.nonempty hparts.isDigit_whole

end Decimal

namespace Numeral

/-- Digits are split off from what follows them. -/
theorem span_digits {ds rest : List Char} (hds : ∀ c ∈ ds, c.isDigit = true)
    (hrest : ∀ c cs, rest = c :: cs → Text.isDigit c = false) :
    (ds ++ rest).takeWhile Text.isDigit = ds ∧ (ds ++ rest).dropWhile Text.isDigit = rest := by
  have hdigits : ∀ c ∈ ds, Text.isDigit c = true := fun c hc => Text.isDigit_of_isDigit (hds c hc)
  rw [List.takeWhile_append_of_pos hdigits, List.dropWhile_append_of_pos hdigits]
  cases rest with
  | nil => simp
  | cons c cs => simp [hrest c cs rfl]

variable {cs whole fraction rest ds : List Char} {negative : Bool}

/-- The rest of a numeral after its digits, and the exponent that it is. -/
structure IsExponent (rest : List Char) (e : Option (Bool × List Char)) : Prop where
  split : ∀ c cs, rest = c :: cs → c = 'e'
  value : exponent? rest = some e

theorem IsExponent.nil : IsExponent [] none := ⟨nofun, rfl⟩

theorem IsExponent.cons (negative : Bool) (hne : ds ≠ []) (hds : ∀ c ∈ ds, c.isDigit = true) :
    IsExponent ('e' :: (if negative then '-' else '+') :: ds) (some (negative, ds)) := by
  have hall : ds.all Text.isDigit = true :=
    List.all_eq_true.2 fun c hc => Text.isDigit_of_isDigit (hds c hc)
  refine ⟨fun c cs h => (List.cons.inj h).1.symm, ?_⟩
  cases negative <;> simp [exponent?, takeSign, hne, hall]

/-- Digits on both sides of a point, and an exponent or none. -/
theorem parse?_point {e : Option (Bool × List Char)}
    (hsign : takeSign cs = (negative, whole ++ '.' :: (fraction ++ rest)))
    (hwhole : ∀ c ∈ whole, c.isDigit = true) (hne : whole ≠ [])
    (hfraction : ∀ c ∈ fraction, c.isDigit = true) (hrest : IsExponent rest e) :
    parse? cs = some ⟨negative, whole, true, fraction, e⟩ := by
  have hpoint : ∀ c ds, '.' :: (fraction ++ rest) = c :: ds → Text.isDigit c = false := by
    intro c ds h
    rw [← (List.cons.inj h).1]
    decide
  have hend : ∀ c ds, rest = c :: ds → Text.isDigit c = false := by
    intro c ds h
    rw [hrest.split c ds h]
    decide
  obtain ⟨htake, hdrop⟩ := span_digits hwhole hpoint
  obtain ⟨htake', hdrop'⟩ := span_digits hfraction hend
  simp [parse?, hsign, htake, hdrop, htake', hdrop', hne, hrest.value]

/-- Digits without a point, and an exponent. -/
theorem parse?_exponent {e : Option (Bool × List Char)}
    (hsign : takeSign cs = (negative, whole ++ 'e' :: rest))
    (hwhole : ∀ c ∈ whole, c.isDigit = true) (hne : whole ≠ [])
    (hrest : IsExponent ('e' :: rest) e) :
    parse? cs = some ⟨negative, whole, false, [], e⟩ := by
  have hend : ∀ c ds, 'e' :: rest = c :: ds → Text.isDigit c = false := by
    intro c ds h
    rw [← (List.cons.inj h).1]
    decide
  obtain ⟨htake, hdrop⟩ := span_digits hwhole hend
  simp [parse?, hsign, htake, hdrop, hne, hrest.value]

variable {d : Decimal} {u : Nat}

/-- The text of an exponent. -/
theorem IsExponent.of_int (width : Nat) (e : Int) :
    ∃ x, IsExponent ('e' :: (if e < 0 then '-' else '+') ::
        (List.replicate (width - (Nat.toDigits 10 e.natAbs).length) '0' ++
          Nat.toDigits 10 e.natAbs)) (some x) ∧
      Double.signed x.1 (Text.digitsValue x.2) = e := by
  have hdigits : ∀ c ∈ List.replicate (width - (Nat.toDigits 10 e.natAbs).length) '0' ++
      Nat.toDigits 10 e.natAbs, c.isDigit = true :=
    List.forall_mem_append.2 ⟨isDigit_zeros _, fun c hc => isDigit_of_mem_digits hc⟩
  have hexp := IsExponent.cons (decide (e < 0)) (by simp [Nat.toDigits_ne_nil]) hdigits
  simp only [decide_eq_true_eq] at hexp
  refine ⟨_, hexp, ?_⟩
  dsimp only
  rw [Decimal.digitsValue_zeros_append, Text.digitsValue_toDigits, Double.signed]
  split
  · next h =>
    have := of_decide_eq_true h
    omega
  · next h =>
    have := of_decide_eq_false (Bool.eq_false_iff.2 h)
    omega

/-- **A decimal is a numeral in each layout**, with an optional sign in front. -/
theorem parse?_write {l : Decimal.Layout} (hsign : takeSign cs = (negative, d.write l))
    (hd : ∀ c ∈ d.digits, c.isDigit = true) (hne : d.digits ≠ []) :
    ∃ m, parse? cs = some m ∧ m.negative = negative ∧ m.isInteger = false ∧
      d.Parts m.whole m.fraction m.exponentValue := by
  unfold Decimal.write at hsign
  split at hsign
  · obtain ⟨whole, fraction, hparts, htext⟩ := Decimal.positional_parts hd hne
    rw [htext, ← List.append_nil fraction] at hsign
    exact ⟨_, parse?_point hsign hparts.isDigit_whole hparts.nonempty hparts.isDigit_fraction .nil,
      rfl, rfl, hparts⟩
  · have hparts := Decimal.exponential_parts hd hne
    obtain ⟨⟨sign, ds⟩, hexp, hvalue⟩ := IsExponent.of_int l.exponentWidth (d.point - 1)
    unfold Decimal.exponential at hsign
    dsimp only at hsign
    rw [← hvalue] at hparts
    split at hsign
    · next hnil =>
      rw [hnil] at hparts
      rw [List.append_nil] at hsign
      exact ⟨_, parse?_exponent hsign hparts.isDigit_whole hparts.nonempty hexp, rfl, rfl, hparts⟩
    · rw [List.append_assoc, List.cons_append] at hsign
      have hparse :=
        parse?_point hsign hparts.isDigit_whole hparts.nonempty hparts.isDigit_fraction hexp
      exact ⟨_, hparse, rfl, rfl, hparts⟩

/-- **A numeral that reads as a double denotes it.** -/
theorem toDouble_of_reads {n : Numeral} {u : Nat} (hu : 0 < u) (hgrid : Double.OnGrid u)
    (h : Decimal.Reads u (Text.digitsValue (n.whole ++ n.fraction))
      (n.exponentValue - n.fraction.length)) : n.toDouble = .finite n.negative u := by
  have hpos := Decimal.reads_pos hu h
  have hge := h.place_ge hu
  have hle := h.place_le hu hgrid
  unfold toDouble
  dsimp only
  rw [if_neg (by omega), if_neg (by omega)]
  exact h.ofScientific n.negative hgrid

end Numeral

namespace Double

open Numeral (parse? takeSign)

variable {u : Nat}

/-- The text of a double that is not zero. -/
theorem toList_text (negative : Bool) (hu : 0 < u) :
    (text (.finite negative u)).toList =
      (if negative then ['-'] else []) ++ (Decimal.shortest u).write .standard := by
  cases negative <;> simp [text, Nat.ne_of_gt hu]

theorem text_chars (negative : Bool) (hu : 0 < u) :
    ∀ c ∈ (text (.finite negative u)).toList, Decimal.IsNumeralChar c := by
  have hreads := Decimal.shortest_readsAs hu
  rw [toList_text negative hu, List.forall_mem_append]
  refine ⟨?_, Decimal.write_chars .standard hreads.digits hreads.nonempty⟩
  cases negative
  · exact fun c hc => absurd hc List.not_mem_nil
  · exact fun c hc => .inr (by simp [List.mem_singleton.1 hc])

/-- **The text of a finite double is a numeral that denotes it.** -/
theorem parse?_text (negative : Bool) (hu : OnGrid u) :
    ∃ m, parse? (text (.finite negative u)).toList = some m ∧ m.isInteger = false ∧
      m.toDouble = .finite negative u := by
  by_cases hzero : u = 0
  · subst hzero
    cases negative
    · exact ⟨⟨false, ['0'], true, ['0'], none⟩, by decide, rfl, rfl⟩
    · exact ⟨⟨true, ['0'], true, ['0'], none⟩, by decide, rfl, rfl⟩
  have hpos : 0 < u := Nat.pos_of_ne_zero hzero
  have hreads := Decimal.shortest_readsAs hpos
  have hsign : takeSign (text (.finite negative u)).toList =
      (negative, (Decimal.shortest u).write .standard) := by
    obtain ⟨c, cs, hhead, hc⟩ := Decimal.write_head .standard hreads.digits hreads.nonempty
    rw [toList_text negative hpos, hhead]
    cases negative
    · exact Numeral.takeSign_of_isDigit hc cs
    · rfl
  obtain ⟨m, hparse, rfl, hkind, hparts⟩ :=
    Numeral.parse?_write hsign hreads.digits hreads.nonempty
  exact ⟨m, hparse, hkind, Numeral.toDouble_of_reads hpos hu (hparts.reads hreads)⟩

/-- **The text of a double is read back as the double.** -/
theorem ofText?_text {x : Double} (h : x.Representable) : ofText? x.text = some x := by
  cases h with
  | nan => rfl
  | infinite negative => cases negative <;> rfl
  | @finite negative u h =>
    obtain ⟨m, hparse, -, hdouble⟩ := parse?_text negative h
    have hne (name : String) (hname : parse? name.toList = none) :
        text (.finite negative u) ≠ name := by
      rintro heq
      rw [heq, hname] at hparse
      cases hparse
    rw [ofText?, if_neg (hne "nan" (by decide)), if_neg (hne "inf" (by decide)),
      if_neg (hne "-inf" (by decide)), hparse, Option.map_some, hdouble]

end Double

end Lambdict
