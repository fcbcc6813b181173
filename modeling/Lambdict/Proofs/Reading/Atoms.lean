import Lambdict.Expr.Surface
import Lambdict.Proofs.Number.Rounding
import Lambdict.Proofs.Reading.Lexing
import Mathlib.Data.List.Induction
import Mathlib.Data.List.TakeWhile

/-!
# Atoms

What a symbol token denotes, in both directions.  An integer within the digit limit is written as
one token that denotes it again (`ofSymbol_intText`), and no token denotes an integer over the limit
(`written_of_ofSymbol`).  A *name* is a symbol that its own text denotes (`IsName`), as a symbol
that a token denotes always is (`eq_of_ofSymbol`).
-/

namespace Lambdict

theorem Double.tenPow_le {j k : Nat} (h : j ≤ k) : tenPow j ≤ tenPow k :=
  Nat.pow_le_pow_right (by decide) h

namespace Text

theorem isDigit_of_isDigit {c : Char} (h : c.isDigit = true) : isDigit c = true := by
  rw [isDigit, digitValue?_of_isDigit h]
  rfl

theorem digitsValue_eq_ofDigitChars {cs : List Char} (h : ∀ c ∈ cs, c.isDigit = true) (n : Nat) :
    cs.foldl (fun n c => 10 * n + (digitValue? c).getD 0) n = Nat.ofDigitChars 10 cs n := by
  induction cs generalizing n with
  | nil => rfl
  | cons c cs ih =>
    obtain ⟨hc, hcs⟩ := List.forall_mem_cons.1 h
    rw [List.foldl_cons, ih hcs, digitValue?_of_isDigit hc, Nat.ofDigitChars_cons]
    rfl

theorem digitsValue_toDigits (n : Nat) : digitsValue (Nat.toDigits 10 n) = n := by
  have hdigits : ∀ c ∈ Nat.toDigits 10 n, c.isDigit = true :=
    fun c hc => Nat.isDigit_of_mem_toDigits (by decide) (by decide) hc
  rw [digitsValue, digitsValue_eq_ofDigitChars hdigits, Nat.ofDigitChars_ten_toDigits]

/-- Digits denote a number below a power of ten. -/
theorem digitsValue_lt (cs : List Char) : digitsValue cs < Double.tenPow cs.length := by
  induction cs using List.reverseRecOn with
  | nil => decide
  | append_singleton cs c ih =>
    have hc : (digitValue? c).getD 0 < 10 := by
      cases h : digitValue? c with
      | none => decide
      | some n => exact digitValue?_lt h
    have hstep : digitsValue (cs ++ [c]) = 10 * digitsValue cs + (digitValue? c).getD 0 := by
      simp [digitsValue]
    have hpow : Double.tenPow (cs ++ [c]).length = Double.tenPow cs.length * 10 := by
      rw [List.length_append, List.length_singleton]
      exact Nat.pow_succ ..
    omega

end Text

/-! ## Integers -/

/-- **What numbers of a text are like**: integers are within the digit limit, and doubles are
double-precision numbers. -/
def Number.Written : Number → Prop
  | .int n => (Number.int n).writable = true
  | .float x => x.Representable

theorem Number.Written.writable {n : Number} (h : n.Written) : n.writable = true := by
  cases n with
  | int n => exact h
  | float x => rfl

theorem Number.writable_int_iff {n : Int} :
    (Number.int n).writable = true ↔ n.natAbs < Double.tenPow Number.digitLimit := by
  rw [Number.writable, decide_eq_true_iff]

namespace Numeral

theorem takeSign_of_isDigit {c : Char} (h : c.isDigit = true) (cs : List Char) :
    takeSign (c :: cs) = (false, c :: cs) := by
  unfold takeSign
  split
  · next heq =>
    obtain ⟨rfl, -⟩ := List.cons.inj heq
    exact absurd h (by decide)
  · next heq =>
    obtain ⟨rfl, -⟩ := List.cons.inj heq
    exact absurd h (by decide)
  · rfl

/-- Digits after an optional sign are the numeral of an integer. -/
theorem parse?_of_takeSign {cs ds : List Char} {negative : Bool}
    (hsign : takeSign cs = (negative, ds)) (hne : ds ≠ []) (hd : ∀ c ∈ ds, c.isDigit = true) :
    parse? cs = some ⟨negative, ds, false, [], none⟩ := by
  have hdigits : ∀ c ∈ ds, Text.isDigit c = true := fun c hc => Text.isDigit_of_isDigit (hd c hc)
  have htake : ds.takeWhile Text.isDigit = ds := List.takeWhile_eq_self_iff.2 hdigits
  have hdrop : ds.dropWhile Text.isDigit = [] := List.dropWhile_eq_nil_iff.2 hdigits
  simp [parse?, hsign, htake, hdrop, hne, exponent?]

theorem length_toDigits_le {n k : Nat} (hk : 0 < k) (h : n < Double.tenPow k) :
    (Nat.toDigits 10 n).length ≤ k :=
  (Nat.length_toDigits_le_iff (by decide) hk).2 h

theorem toNumber_of_digits (negative : Bool) {n : Nat} (h : n < Double.tenPow Number.digitLimit) :
    toNumber ⟨negative, Nat.toDigits 10 n, false, [], none⟩ =
      .ok (.int (Double.signed negative n)) := by
  simp [toNumber, isInteger, length_toDigits_le (by decide) h, Text.digitsValue_toDigits]

theorem natAbs_signed (negative : Bool) (n : Nat) : (Double.signed negative n).natAbs = n := by
  cases negative <;> simp [Double.signed]

/-- A numeral denotes a double-precision number. -/
theorem toDouble_representable (m : Numeral) : m.toDouble.Representable := by
  unfold toDouble
  dsimp only
  split
  · exact .finite m.negative Double.onGrid_zero
  · split
    · exact .infinite m.negative
    · exact Double.ofScientific_representable _ _ _

/-- A numeral denotes no integer over the digit limit. -/
theorem written_of_toNumber {m : Numeral} {n : Number} (h : m.toNumber = .ok n) : n.Written := by
  unfold toNumber at h
  split at h
  · split at h
    · next hlen =>
      cases h
      have hlt := Text.digitsValue_lt m.whole
      rw [Number.Written, Number.writable_int_iff, natAbs_signed]
      exact Nat.lt_of_lt_of_le hlt (Double.tenPow_le hlen)
    · cases h
  · cases h
    exact toDouble_representable m

end Numeral

theorem isDigit_of_mem_digits {n : Nat} {c : Char} (h : c ∈ Nat.toDigits 10 n) :
    c.isDigit = true :=
  Nat.isDigit_of_mem_toDigits (by decide) (by decide) h

/-- The parts of an integer's text. -/
theorem Number.intText_parts (n : Int) :
    ∃ negative, n = Double.signed negative n.natAbs ∧
      Numeral.takeSign (Number.intText n).toList = (negative, Nat.toDigits 10 n.natAbs) ∧
      (Number.intText n).toList =
        (if negative then ['-'] else []) ++ Nat.toDigits 10 n.natAbs := by
  cases n with
  | ofNat n =>
    refine ⟨false, rfl, ?_, by simp [Number.intText]⟩
    have htext : (Number.intText (.ofNat n)).toList = Nat.toDigits 10 n := by simp [Number.intText]
    rw [htext]
    cases hds : Nat.toDigits 10 n with
    | nil => exact absurd hds Nat.toDigits_ne_nil
    | cons c cs =>
      have hc : c.isDigit = true := isDigit_of_mem_digits (n := n) (by rw [hds]; simp)
      have hsign := Numeral.takeSign_of_isDigit hc cs
      rw [hsign]
      exact congrArg (Prod.mk false) hds.symm
  | negSucc n =>
    have htext : (Number.intText (.negSucc n)).toList = '-' :: Nat.toDigits 10 (n + 1) := by
      simp [Number.intText]
    refine ⟨true, rfl, ?_, htext⟩
    rw [htext]
    rfl

theorem parse?_intText (n : Int) : ∃ negative, n = Double.signed negative n.natAbs ∧
    Numeral.parse? (Number.intText n).toList =
      some ⟨negative, Nat.toDigits 10 n.natAbs, false, [], none⟩ := by
  obtain ⟨negative, hn, hsign, -⟩ := Number.intText_parts n
  refine ⟨negative, hn, ?_⟩
  exact Numeral.parse?_of_takeSign hsign Nat.toDigits_ne_nil fun c hc => isDigit_of_mem_digits hc

namespace SExpr

/-- **A symbol token denotes the number that its numeral denotes.** -/
theorem ofSymbol_eq_number_iff {text : String} {n : Number} :
    ofSymbol text = .ok (.number n) ↔
      ∃ m, Numeral.parse? text.toList = some m ∧ m.toNumber = .ok n := by
  constructor
  · intro h
    unfold ofSymbol at h
    split at h
    · cases h
    split at h
    · cases h
    split at h
    · cases h
    next m hparse =>
    split at h
    · next hnumber =>
      cases h
      exact ⟨m, hparse, hnumber⟩
    · cases h
  · rintro ⟨m, hparse, hnumber⟩
    have hne (name : String) (hname : Numeral.parse? name.toList = none) : text ≠ name := by
      rintro rfl
      rw [hname] at hparse
      cases hparse
    unfold ofSymbol
    rw [if_neg (hne "#t" (by decide)), if_neg (hne "#f" (by decide)), hparse]
    simp only [hnumber]

/-- **An integer that can be written is read back from its text.** -/
theorem ofSymbol_intText {n : Int} (h : (Number.int n).writable = true) :
    ofSymbol (Number.intText n) = .ok (.number (.int n)) := by
  obtain ⟨negative, hn, hparse⟩ := parse?_intText n
  have hnumber := Numeral.toNumber_of_digits negative (Number.writable_int_iff.1 h)
  rw [← hn] at hnumber
  exact ofSymbol_eq_number_iff.2 ⟨_, hparse, hnumber⟩

/-- The text of an integer denotes no double. -/
theorem ofSymbol_intText_ne_float (n : Int) (x : Double) :
    ofSymbol (Number.intText n) ≠ .ok (.number (.float x)) := by
  intro h
  obtain ⟨m, hm, hnumber⟩ := ofSymbol_eq_number_iff.1 h
  obtain ⟨negative, -, hparse⟩ := parse?_intText n
  obtain rfl := Option.some.inj (hparse.symm.trans hm)
  have hkind : Numeral.isInteger ⟨negative, Nat.toDigits 10 n.natAbs, false, [], none⟩ = true := rfl
  rw [Numeral.toNumber, if_pos hkind] at hnumber
  split at hnumber <;> cases hnumber

/-- **No token denotes an integer over the digit limit**, nor a double that is off its grid. -/
theorem written_of_ofSymbol {text : String} {n : Number} (h : ofSymbol text = .ok (.number n)) :
    n.Written := by
  obtain ⟨m, -, hnumber⟩ := ofSymbol_eq_number_iff.1 h
  exact Numeral.written_of_toNumber hnumber

/-- What a symbol token denotes is a symbol only as its own text. -/
theorem eq_of_ofSymbol {text x : String} (h : ofSymbol text = .ok (.symbol x)) : x = text := by
  unfold ofSymbol at h
  split at h
  · cases h
  split at h
  · cases h
  split at h
  · cases h
    rfl
  split at h <;> cases h

/-- A symbol token denotes no list. -/
theorem not_list_of_ofSymbol {text : String} {x : SExpr} (h : ofSymbol text = .ok x) :
    (∃ n, x = .number n) ∨ (∃ b, x = .boolean b) ∨ x = .symbol text := by
  unfold ofSymbol at h
  split at h
  · cases h
    exact .inr (.inl ⟨_, rfl⟩)
  split at h
  · cases h
    exact .inr (.inl ⟨_, rfl⟩)
  split at h
  · cases h
    exact .inr (.inr rfl)
  split at h
  · cases h
    exact .inl ⟨_, rfl⟩
  · cases h

end SExpr

theorem isSymbolChar_of_isDigit {c : Char} (h : c.isDigit = true) : isSymbolChar c = true := by
  have hrange : 0x30 ≤ c.toNat ∧ c.toNat ≤ 0x39 := by
    simp only [Char.isDigit, Bool.and_eq_true, decide_eq_true_eq] at h
    exact ⟨UInt32.le_iff_toNat_le.1 h.1, UInt32.le_iff_toNat_le.1 h.2⟩
  have hblank : Text.isBlank c = false := by
    simp [Text.isBlank, Text.inRanges, Text.blankRanges]
    omega
  have hne (d : Char) (hd : d.isDigit = false) : c ≠ d := by
    rintro rfl
    rw [h] at hd
    cases hd
  simp [isSymbolChar, hblank, hne]

/-- **The text of an integer is one symbol token.** -/
theorem symbolText_intText (n : Int) : SymbolText (Number.intText n).toList := by
  obtain ⟨negative, -, -, htext⟩ := Number.intText_parts n
  have hchars : ∀ c ∈ (Number.intText n).toList, isSymbolChar c = true ∧ c ≠ '#' := by
    intro c hc
    rw [htext] at hc
    rcases List.mem_append.1 hc with hc | hc
    · cases negative
      · cases hc
      · rw [List.mem_singleton.1 hc]
        decide
    · have hd := isDigit_of_mem_digits hc
      refine ⟨isSymbolChar_of_isDigit hd, ?_⟩
      rintro rfl
      exact absurd hd (by decide)
  refine ⟨?_, fun c hc => (hchars c hc).1, ?_⟩
  · rw [htext]
    simp [Nat.toDigits_ne_nil]
  · intro rest heq
    exact (hchars '#' (by rw [heq]; simp)).2 rfl

/-! ## Names -/

/-- **A name**: a symbol that can be written, and that its text denotes. -/
structure IsName (x : String) : Prop where
  text : SymbolText x.toList
  denotes : SExpr.ofSymbol x = .ok (.symbol x)

theorem isName_keyword {x : String}
    (h : x ∈ ["quote", "if", "lambda", "define", "dict", "self", "entries", "box"]) :
    IsName x := by
  simp only [List.mem_cons, List.not_mem_nil, or_false] at h
  rcases h with rfl | rfl | rfl | rfl | rfl | rfl | rfl | rfl <;> exact ⟨by decide, rfl⟩

theorem isName_primitive (p : Primitive) : IsName p.name := by
  cases p <;> exact ⟨by decide, rfl⟩

theorem symbolText_truthText (b : Bool) : SymbolText (truthText b).toList := by
  cases b <;> decide

end Lambdict
