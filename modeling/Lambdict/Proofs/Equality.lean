import Lambdict.Outcome
import Mathlib.Data.List.Forall2

/-!
# What equal values have in common

Two values that are equal differ in which objects they are made of, and in how their numbers are
written down, and in next to nothing else.  To say so, both are erased: the *outline* of a value is
what is left of it when its objects and its numbers are forgotten (`Value.outline`).  Names, strings
and symbols stay in it, and so do booleans, so where the outlines of two values are one a boolean
stands opposite the same boolean.

There is one exception.  A boolean that stands *bare*, directly under a quote or as an item of a
plain sequence, is compared as the number it stands for.  So there are two outlines.  The strict one
keeps bare booleans and the lax one forgets them.  Equality is exactly this: the lax outlines are
one, and number by number the values are equal, bare booleans among them (`Value.equalBy_iff`),
whatever it is that makes two numbers equal.  Where no boolean is bare the two outlines are one.
-/

namespace Lambdict

/-! ## Outlines -/

mutual

/-- What is left of an expression without its objects and numbers. -/
def Expr.outline (lax : Bool) : Expr → Expr
  | .number _ => .number (.int 0)
  | .boolean b => .boolean b
  | .string s => .string s
  | .var x => .var x
  | .prim p => .prim p
  | .cond t c a => .cond (t.outline lax) (c.outline lax) (a.outline lax)
  | .lambda ps b => .lambda ps (Expr.outlineAll lax b)
  | .app f es => .app (f.outline lax) (Expr.outlineAll lax es)
  | .define x e => .define x (e.outline lax)
  | .quote d => .quote (d.outline lax true)
  | .dict es => .dict (Expr.outlineEntries lax es)
  | .foreign v => .foreign (v.outline lax true)

/-- The same of several expressions. -/
def Expr.outlineAll (lax : Bool) : List Expr → List Expr
  | [] => []
  | e :: es => e.outline lax :: Expr.outlineAll lax es

/-- The same of the entries of a dictionary literal. -/
def Expr.outlineEntries (lax : Bool) : List (String × Expr) → List (String × Expr)
  | [] => []
  | (k, e) :: es => (k, e.outline lax) :: Expr.outlineEntries lax es

/-- **What is left of a value without its objects and numbers.**  A lax outline is also without the
booleans that stand bare; `bare` says whether the value itself does. -/
def Value.outline (lax bare : Bool) : Value → Value
  | .nothing => .nothing
  | .number _ => .number (.int 0)
  | .boolean b => if lax && bare then .number (.int 0) else .boolean b
  | .string s => .string s
  | .symbol x => .symbol x
  | .empty => .empty
  | .pair _ h t => .pair (.given 0) (h.outline lax false) (t.outline lax false)
  | .prim p => .prim p
  | .closure _ ps b => .closure (.given 0) ps (Expr.outlineAll lax b)
  | .dict _ es => .dict (.given 0) (Value.outlineEntries lax es)
  | .code _ e => .code (.given 0) (e.outline lax)
  | .sequence _ vs => .sequence (.given 0) (Value.outlineAll lax vs)

/-- The same of the items of a plain sequence, which stand bare. -/
def Value.outlineAll (lax : Bool) : List Value → List Value
  | [] => []
  | v :: vs => v.outline lax true :: Value.outlineAll lax vs

/-- The same of the entries of a dictionary. -/
def Value.outlineEntries (lax : Bool) : List (String × Value) → List (String × Value)
  | [] => []
  | (k, v) :: es => (k, v.outline lax false) :: Value.outlineEntries lax es

end

mutual

/-- The numbers in an expression, in order, bare booleans among them. -/
def Expr.numbers : Expr → List Number
  | .number n => [n]
  | .boolean _ | .string _ | .var _ | .prim _ => []
  | .cond t c a => (t.numbers ++ c.numbers) ++ a.numbers
  | .lambda _ b => Expr.numbersAll b
  | .app f es => f.numbers ++ Expr.numbersAll es
  | .define _ e => e.numbers
  | .quote d => d.numbers true
  | .dict es => Expr.numbersEntries es
  | .foreign v => v.numbers true

/-- The same of several expressions. -/
def Expr.numbersAll : List Expr → List Number
  | [] => []
  | e :: es => e.numbers ++ Expr.numbersAll es

/-- The same of the entries of a dictionary literal. -/
def Expr.numbersEntries : List (String × Expr) → List Number
  | [] => []
  | (_, e) :: es => e.numbers ++ Expr.numbersEntries es

/-- The numbers in a value, in order, bare booleans among them. -/
def Value.numbers (bare : Bool) : Value → List Number
  | .number n => [n]
  | .boolean b => if bare then [truthNumber b] else []
  | .nothing | .string _ | .symbol _ | .empty | .prim _ => []
  | .pair _ h t => h.numbers false ++ t.numbers false
  | .closure _ _ b => Expr.numbersAll b
  | .dict _ es => Value.numbersEntries es
  | .code _ e => e.numbers
  | .sequence _ vs => Value.numbersAll vs

/-- The same of the items of a plain sequence. -/
def Value.numbersAll : List Value → List Number
  | [] => []
  | v :: vs => v.numbers true ++ Value.numbersAll vs

/-- The same of the entries of a dictionary. -/
def Value.numbersEntries : List (String × Value) → List Number
  | [] => []
  | (_, v) :: es => v.numbers false ++ Value.numbersEntries es

end

mutual

/-- No boolean in an expression stands bare. -/
def Expr.NoneBare : Expr → Prop
  | .number _ | .boolean _ | .string _ | .var _ | .prim _ => True
  | .cond t c a => t.NoneBare ∧ c.NoneBare ∧ a.NoneBare
  | .lambda _ b => Expr.NoneBareAll b
  | .app f es => f.NoneBare ∧ Expr.NoneBareAll es
  | .define _ e => e.NoneBare
  | .quote d => d.NoneBare true
  | .dict es => Expr.NoneBareEntries es
  | .foreign v => v.NoneBare true

/-- The same of several expressions. -/
def Expr.NoneBareAll : List Expr → Prop
  | [] => True
  | e :: es => e.NoneBare ∧ Expr.NoneBareAll es

/-- The same of the entries of a dictionary literal. -/
def Expr.NoneBareEntries : List (String × Expr) → Prop
  | [] => True
  | (_, e) :: es => e.NoneBare ∧ Expr.NoneBareEntries es

/-- **No boolean in a value stands bare**: none is directly under a quote, and none is an item of a
plain sequence. -/
def Value.NoneBare (bare : Bool) : Value → Prop
  | .boolean _ => bare = false
  | .nothing | .number _ | .string _ | .symbol _ | .empty | .prim _ => True
  | .pair _ h t => h.NoneBare false ∧ t.NoneBare false
  | .closure _ _ b => Expr.NoneBareAll b
  | .dict _ es => Value.NoneBareEntries es
  | .code _ e => e.NoneBare
  | .sequence _ vs => Value.NoneBareAll vs

/-- The same of the items of a plain sequence. -/
def Value.NoneBareAll : List Value → Prop
  | [] => True
  | v :: vs => v.NoneBare true ∧ Value.NoneBareAll vs

/-- The same of the entries of a dictionary. -/
def Value.NoneBareEntries : List (String × Value) → Prop
  | [] => True
  | (_, v) :: es => v.NoneBare false ∧ Value.NoneBareEntries es

end

/-! ## Where no boolean is bare -/

mutual

/-- Without bare booleans a lax outline forgets no boolean. -/
theorem Expr.NoneBare.outline : ∀ {e : Expr}, e.NoneBare → e.outline true = e.outline false
  | .number _, _ | .boolean _, _ | .string _, _ | .var _, _ | .prim _, _ => rfl
  | .cond _ _ _, ⟨ht, hc, ha⟩ => by
    rw [Expr.outline, Expr.outline, ht.outline, hc.outline, ha.outline]
  | .lambda _ _, h => by rw [Expr.outline, Expr.outline, Expr.NoneBareAll.outlineAll h]
  | .app _ _, ⟨hf, hes⟩ => by
    rw [Expr.outline, Expr.outline, hf.outline, Expr.NoneBareAll.outlineAll hes]
  | .define _ e, h => by
    have he : e.outline true = e.outline false := Expr.NoneBare.outline h
    rw [Expr.outline, Expr.outline, he]
  | .quote _, h => by rw [Expr.outline, Expr.outline, Value.NoneBare.outline h]
  | .dict _, h => by rw [Expr.outline, Expr.outline, Expr.NoneBareEntries.outlineEntries h]
  | .foreign _, h => by rw [Expr.outline, Expr.outline, Value.NoneBare.outline h]

theorem Expr.NoneBareAll.outlineAll : ∀ {es : List Expr}, Expr.NoneBareAll es →
    Expr.outlineAll true es = Expr.outlineAll false es
  | [], _ => rfl
  | _ :: _, ⟨he, hes⟩ => by
    rw [Expr.outlineAll, Expr.outlineAll, he.outline, Expr.NoneBareAll.outlineAll hes]

theorem Expr.NoneBareEntries.outlineEntries : ∀ {es : List (String × Expr)},
    Expr.NoneBareEntries es → Expr.outlineEntries true es = Expr.outlineEntries false es
  | [], _ => rfl
  | (_, _) :: _, ⟨he, hes⟩ => by
    rw [Expr.outlineEntries, Expr.outlineEntries, he.outline,
      Expr.NoneBareEntries.outlineEntries hes]

/-- Where no boolean is bare the two outlines are the same. -/
theorem Value.NoneBare.outline : ∀ {v : Value} {bare : Bool}, v.NoneBare bare →
    v.outline true bare = v.outline false bare
  | .boolean _, bare, h => by
    obtain rfl : bare = false := h
    rfl
  | .nothing, _, _ | .number _, _, _ | .string _, _, _ | .symbol _, _, _ | .empty, _, _
  | .prim _, _, _ => rfl
  | .pair _ _ _, _, ⟨hh, ht⟩ => by rw [Value.outline, Value.outline, hh.outline, ht.outline]
  | .closure _ _ _, _, h => by rw [Value.outline, Value.outline, Expr.NoneBareAll.outlineAll h]
  | .dict _ _, _, h => by rw [Value.outline, Value.outline, Value.NoneBareEntries.outlineEntries h]
  | .code _ _, _, h => by rw [Value.outline, Value.outline, Expr.NoneBare.outline h]
  | .sequence _ _, _, h => by rw [Value.outline, Value.outline, Value.NoneBareAll.outlineAll h]

theorem Value.NoneBareAll.outlineAll : ∀ {vs : List Value}, Value.NoneBareAll vs →
    Value.outlineAll true vs = Value.outlineAll false vs
  | [], _ => rfl
  | _ :: _, ⟨hv, hvs⟩ => by
    rw [Value.outlineAll, Value.outlineAll, hv.outline, Value.NoneBareAll.outlineAll hvs]

theorem Value.NoneBareEntries.outlineEntries : ∀ {es : List (String × Value)},
    Value.NoneBareEntries es → Value.outlineEntries true es = Value.outlineEntries false es
  | [], _ => rfl
  | (_, _) :: _, ⟨hv, hes⟩ => by
    rw [Value.outlineEntries, Value.outlineEntries, hv.outline,
      Value.NoneBareEntries.outlineEntries hes]

end

/-! ## How many numbers there are -/

/-- The numbers of an outline. -/
def zeros (ns : List Number) : List Number :=
  ns.map fun _ => .int 0

/-- Numbers are blotted out one by one. -/
@[simp]
theorem zeros_append (ms ns : List Number) : zeros (ms ++ ns) = zeros ms ++ zeros ns :=
  List.map_append

mutual

/-- The lax outline of an expression has as many numbers, all of them zero. -/
theorem Expr.numbers_outline : ∀ e : Expr, (e.outline true).numbers = zeros e.numbers
  | .number _ | .boolean _ | .string _ | .var _ | .prim _ => rfl
  | .cond t c a => by
    simp only [Expr.outline, Expr.numbers, t.numbers_outline, c.numbers_outline,
      a.numbers_outline, zeros_append]
  | .lambda _ b => Expr.numbersAll_outlineAll b
  | .app f es => by
    simp only [Expr.outline, Expr.numbers, f.numbers_outline, Expr.numbersAll_outlineAll es,
      zeros_append]
  | .define _ e => e.numbers_outline
  | .quote d => d.numbers_outline true
  | .dict es => Expr.numbersEntries_outlineEntries es
  | .foreign v => v.numbers_outline true

theorem Expr.numbersAll_outlineAll : ∀ es : List Expr,
    Expr.numbersAll (Expr.outlineAll true es) = zeros (Expr.numbersAll es)
  | [] => rfl
  | e :: es => by
    simp only [Expr.outlineAll, Expr.numbersAll, e.numbers_outline, Expr.numbersAll_outlineAll es,
      zeros_append]

theorem Expr.numbersEntries_outlineEntries : ∀ es : List (String × Expr),
    Expr.numbersEntries (Expr.outlineEntries true es) = zeros (Expr.numbersEntries es)
  | [] => rfl
  | (_, e) :: es => by
    simp only [Expr.outlineEntries, Expr.numbersEntries, e.numbers_outline,
      Expr.numbersEntries_outlineEntries es, zeros_append]

/-- An outline has the numbers of the value, blotted out. -/
theorem Value.numbers_outline : ∀ (v : Value) (bare : Bool),
    (v.outline true bare).numbers bare = zeros (v.numbers bare)
  | .boolean _, true | .boolean _, false => rfl
  | .nothing, _ | .number _, _ | .string _, _ | .symbol _, _ | .empty, _ | .prim _, _ => rfl
  | .pair _ h t, _ => by
    simp only [Value.outline, Value.numbers, h.numbers_outline, t.numbers_outline, zeros_append]
  | .closure _ _ b, _ => Expr.numbersAll_outlineAll b
  | .dict _ es, _ => Value.numbersEntries_outlineEntries es
  | .code _ e, _ => e.numbers_outline
  | .sequence _ vs, _ => Value.numbersAll_outlineAll vs

theorem Value.numbersAll_outlineAll : ∀ vs : List Value,
    Value.numbersAll (Value.outlineAll true vs) = zeros (Value.numbersAll vs)
  | [] => rfl
  | v :: vs => by
    simp only [Value.outlineAll, Value.numbersAll, v.numbers_outline,
      Value.numbersAll_outlineAll vs, zeros_append]

theorem Value.numbersEntries_outlineEntries : ∀ es : List (String × Value),
    Value.numbersEntries (Value.outlineEntries true es) = zeros (Value.numbersEntries es)
  | [] => rfl
  | (_, v) :: es => by
    simp only [Value.outlineEntries, Value.numbersEntries, v.numbers_outline,
      Value.numbersEntries_outlineEntries es, zeros_append]

end

section

variable {same : Number → Number → Bool}

/-- Lists of numbers that are one by one what `same` takes for one number. -/
def NumbersEqual (same : Number → Number → Bool) (ms ns : List Number) : Prop :=
  List.Forall₂ (fun m n => same m n = true) ms ns

namespace NumbersEqual

variable {ms ms' ns ns' : List Number}

/-- Numbers in two parts are equal when they are equal in each. -/
theorem append_iff (h : zeros ms = zeros ns) :
    NumbersEqual same (ms ++ ms') (ns ++ ns') ↔
      NumbersEqual same ms ns ∧ NumbersEqual same ms' ns' := by
  have hlen : ms.length = ns.length := by simpa [zeros] using congrArg List.length h
  refine ⟨fun hall => ?_, fun ⟨hfirst, hsecond⟩ => List.rel_append hfirst hsecond⟩
  have htake := List.forall₂_take ms.length hall
  have hdrop := List.forall₂_drop ms.length hall
  rw [List.take_left' rfl, List.take_left' hlen.symm] at htake
  rw [List.drop_left' rfl, List.drop_left' hlen.symm] at hdrop
  exact ⟨htake, hdrop⟩

/-- Two parts are equal each, where `p` and `q` tell of the outlines of each part that they are
one. -/
theorem append_and_iff {p q : Prop} (h : p → zeros ms = zeros ns) :
    (p ∧ NumbersEqual same ms ns) ∧ (q ∧ NumbersEqual same ms' ns') ↔
      (p ∧ q) ∧ NumbersEqual same (ms ++ ms') (ns ++ ns') := by
  constructor
  · rintro ⟨⟨hp, hfirst⟩, hq, hsecond⟩
    exact ⟨⟨hp, hq⟩, (append_iff (h hp)).2 ⟨hfirst, hsecond⟩⟩
  · rintro ⟨⟨hp, hq⟩, hall⟩
    obtain ⟨hfirst, hsecond⟩ := (append_iff (h hp)).1 hall
    exact ⟨⟨hp, hfirst⟩, hq, hsecond⟩

theorem singleton_iff {m n : Number} : NumbersEqual same [m] [n] ↔ same m n = true := by
  simp [NumbersEqual]

theorem nil_nil : NumbersEqual same [] [] := .nil

end NumbersEqual

end

/-! ## Equality of a thing with itself -/

section

variable {same : Number → Number → Bool}

mutual

/-- An expression is equal to itself if numbers are. -/
theorem Expr.equalBy_refl (h : ∀ n, same n n = true) : ∀ e : Expr, e.equalBy same e = true
  | .number n => h n
  | .boolean _ | .string _ | .var _ | .prim _ => by simp [Expr.equalBy]
  | .cond t c a => by
    simp only [Expr.equalBy, Expr.equalBy_refl h t, Expr.equalBy_refl h c, Expr.equalBy_refl h a]
    rfl
  | .lambda ps b => by simp [Expr.equalBy, Expr.equalAllBy_refl h b]
  | .app f es => by
    simp only [Expr.equalBy, Expr.equalBy_refl h f, Expr.equalAllBy_refl h es]
    rfl
  | .define x e => by simp [Expr.equalBy, Expr.equalBy_refl h e]
  | .quote d => Value.equalBy_refl h false d
  | .dict es => Expr.equalEntriesBy_refl h es
  | .foreign v => Value.equalBy_refl h false v

theorem Expr.equalAllBy_refl (h : ∀ n, same n n = true) : ∀ es : List Expr,
    Expr.equalAllBy same es es = true
  | [] => rfl
  | e :: es => by simp [Expr.equalAllBy, Expr.equalBy_refl h e, Expr.equalAllBy_refl h es]

theorem Expr.equalEntriesBy_refl (h : ∀ n, same n n = true) : ∀ es : List (String × Expr),
    Expr.equalEntriesBy same es es = true
  | [] => rfl
  | (_, e) :: es => by
    simp [Expr.equalEntriesBy, Expr.equalBy_refl h e, Expr.equalEntriesBy_refl h es]

/-- A value is equal to itself if numbers are. -/
theorem Value.equalBy_refl (h : ∀ n, same n n = true) (strict : Bool) : ∀ v : Value,
    v.equalBy same strict v = true
  | .number n => h n
  | .nothing | .empty => rfl
  | .boolean _ | .string _ | .symbol _ | .prim _ => by simp [Value.equalBy]
  | .pair _ hd tl => by
    simp only [Value.equalBy, Value.equalBy_refl h true hd, Value.equalBy_refl h true tl]
    rfl
  | .closure _ ps b => by simp [Value.equalBy, Expr.equalAllBy_refl h b]
  | .dict _ es => Value.equalEntriesBy_refl h es
  | .code _ e => Expr.equalBy_refl h e
  | .sequence _ vs => Value.equalAllBy_refl h vs

theorem Value.equalAllBy_refl (h : ∀ n, same n n = true) : ∀ vs : List Value,
    Value.equalAllBy same vs vs = true
  | [] => rfl
  | v :: vs => by
    simp only [Value.equalAllBy, Value.equalBy_refl h false v, Value.equalAllBy_refl h vs]
    rfl

theorem Value.equalEntriesBy_refl (h : ∀ n, same n n = true) : ∀ es : List (String × Value),
    Value.equalEntriesBy same es es = true
  | [] => rfl
  | (_, v) :: es => by
    simp [Value.equalEntriesBy, Value.equalBy_refl h true v, Value.equalEntriesBy_refl h es]

end

end

/-- A number is the same as itself or NaN. -/
theorem Number.sameOrNaN_refl (n : Number) : n.sameOrNaN n = true := by
  cases hn : n.isNaN with
  | true => simp [Number.sameOrNaN, hn]
  | false => simp [Number.sameOrNaN, Number.equal_refl hn]

/-! ## Equality -/

/-- Expressions of one outline have as many numbers. -/
theorem Expr.zeros_numbers {e e' : Expr} (h : e.outline true = e'.outline true) :
    zeros e.numbers = zeros e'.numbers := by
  rw [← e.numbers_outline, h, e'.numbers_outline]

/-- Values of one outline have as many numbers. -/
theorem Value.zeros_numbers {v v' : Value} {bare : Bool}
    (h : v.outline true bare = v'.outline true bare) :
    zeros (v.numbers bare) = zeros (v'.numbers bare) := by
  rw [← v.numbers_outline, h, v'.numbers_outline]

theorem Double.twoPow_ne_zero (n : Nat) : twoPow n ≠ 0 :=
  Nat.ne_of_gt (Nat.two_pow_pos n)

theorem Double.scale_ne_zero : (scale : Int) ≠ 0 :=
  Int.natCast_ne_zero.2 (twoPow_ne_zero 1074)

/-- Integers are equal when they are the same. -/
theorem Number.equal_int {m n : Int} : (Number.int m).equal (.int n) = true ↔ m = n := by
  simp only [Number.equal, Number.point?, decide_eq_true_eq, Point.units.injEq]
  exact Int.mul_eq_mul_right_iff Double.scale_ne_zero

/-- The numbers that booleans equal are equal when the booleans are the same. -/
theorem truthNumber_equal (a b : Bool) :
    (truthNumber a).equal (truthNumber b) = true ↔ a = b := by
  unfold truthNumber
  rw [Number.equal_int]
  cases a <;> cases b <;> decide

/-- The numbers that booleans equal are not NaN, and so tell the booleans apart. -/
theorem truthNumber_sameOrNaN (a b : Bool) :
    (truthNumber a).sameOrNaN (truthNumber b) = true ↔ a = b := by
  have hnan : (truthNumber a).isNaN = false := rfl
  rw [Number.sameOrNaN, hnan, Bool.false_and, Bool.or_false, truthNumber_equal]

/-- Truth values stay apart where they are compared as numbers. -/
def KeepsTruth (same : Number → Number → Bool) : Prop :=
  ∀ a b, same (truthNumber a) (truthNumber b) = true ↔ a = b

section

variable {same : Number → Number → Bool}

open NumbersEqual (append_and_iff singleton_iff nil_nil)

mutual

/-- Expressions are equal when their lax outlines are one and their numbers are equal. -/
theorem Expr.equalBy_iff (hsame : KeepsTruth same) : ∀ e e' : Expr, e.equalBy same e' = true ↔
    e.outline true = e'.outline true ∧ NumbersEqual same e.numbers e'.numbers
  | .number _, e' => by
    cases e' <;> simp [Expr.equalBy, Expr.outline, Expr.numbers, singleton_iff]
  | .boolean _, e' | .string _, e' | .var _, e' | .prim _, e' => by
    cases e' <;> simp [Expr.equalBy, Expr.outline, Expr.numbers, nil_nil]
  | .cond t c a, e' => by
    cases e' with
    | cond t' c' a' =>
      simp only [Expr.equalBy, Bool.and_eq_true, Expr.equalBy_iff hsame t t',
        Expr.equalBy_iff hsame c c', Expr.equalBy_iff hsame a a', Expr.outline, Expr.numbers,
        Expr.cond.injEq]
      rw [← and_assoc (c := a.outline true = a'.outline true), append_and_iff Expr.zeros_numbers]
      refine append_and_iff fun ⟨ht, hc⟩ => ?_
      rw [zeros_append, zeros_append, Expr.zeros_numbers ht, Expr.zeros_numbers hc]
    | _ => simp [Expr.equalBy, Expr.outline]
  | .lambda ps b, e' => by
    cases e' with
    | lambda ps' b' =>
      simp only [Expr.equalBy, Bool.and_eq_true, beq_iff_eq, Expr.equalAllBy_iff hsame b b',
        Expr.outline, Expr.numbers, Expr.lambda.injEq, and_assoc]
    | _ => simp [Expr.equalBy, Expr.outline]
  | .app f es, e' => by
    cases e' with
    | app f' es' =>
      simp only [Expr.equalBy, Bool.and_eq_true, Expr.equalBy_iff hsame f f',
        Expr.equalAllBy_iff hsame es es', Expr.outline, Expr.numbers, Expr.app.injEq]
      exact append_and_iff Expr.zeros_numbers
    | _ => simp [Expr.equalBy, Expr.outline]
  | .define x e, e' => by
    cases e' with
    | define x' e' =>
      simp only [Expr.equalBy, Bool.and_eq_true, beq_iff_eq, Expr.equalBy_iff hsame e e',
        Expr.outline, Expr.numbers, Expr.define.injEq, and_assoc]
    | _ => simp [Expr.equalBy, Expr.outline]
  | .quote d, e' => by
    cases e' with
    | quote d' =>
      simp only [Expr.equalBy, Value.equalBy_iff hsame d false d', Bool.not_false, Expr.outline,
        Expr.numbers, Expr.quote.injEq]
    | _ => simp [Expr.equalBy, Expr.outline]
  | .dict es, e' => by
    cases e' with
    | dict es' =>
      simp only [Expr.equalBy, Expr.equalEntriesBy_iff hsame es es', Expr.outline, Expr.numbers,
        Expr.dict.injEq]
    | _ => simp [Expr.equalBy, Expr.outline]
  | .foreign v, e' => by
    cases e' with
    | foreign v' =>
      simp only [Expr.equalBy, Value.equalBy_iff hsame v false v', Bool.not_false, Expr.outline,
        Expr.numbers, Expr.foreign.injEq]
    | _ => simp [Expr.equalBy, Expr.outline]
termination_by structural e => e

/-- **Sequences are equal when they have one outline and equal numbers.** -/
theorem Expr.equalAllBy_iff (hsame : KeepsTruth same) : ∀ es es' : List Expr,
    Expr.equalAllBy same es es' = true ↔
      Expr.outlineAll true es = Expr.outlineAll true es' ∧
        NumbersEqual same (Expr.numbersAll es) (Expr.numbersAll es')
  | [], [] => by simp [Expr.equalAllBy, Expr.outlineAll, Expr.numbersAll, nil_nil]
  | [], _ :: _ | _ :: _, [] => by simp [Expr.equalAllBy, Expr.outlineAll]
  | e :: es, e' :: es' => by
    simp only [Expr.equalAllBy, Bool.and_eq_true, Expr.equalBy_iff hsame e e',
      Expr.equalAllBy_iff hsame es es', Expr.outlineAll, Expr.numbersAll, List.cons.injEq]
    exact append_and_iff Expr.zeros_numbers
termination_by structural es => es

theorem Expr.equalEntriesBy_iff (hsame : KeepsTruth same) : ∀ es es' : List (String × Expr),
    Expr.equalEntriesBy same es es' = true ↔
      Expr.outlineEntries true es = Expr.outlineEntries true es' ∧
        NumbersEqual same (Expr.numbersEntries es) (Expr.numbersEntries es')
  | [], [] => by simp [Expr.equalEntriesBy, Expr.outlineEntries, Expr.numbersEntries, nil_nil]
  | [], _ :: _ | _ :: _, [] => by simp [Expr.equalEntriesBy, Expr.outlineEntries]
  | (k, e) :: es, (k', e') :: es' => by
    simp only [Expr.equalEntriesBy, Bool.and_eq_true, beq_iff_eq, Expr.equalBy_iff hsame e e',
      Expr.equalEntriesBy_iff hsame es es', Expr.outlineEntries, Expr.numbersEntries,
      List.cons.injEq, Prod.mk.injEq]
    rw [← and_assoc (a := k = k'), append_and_iff fun h => Expr.zeros_numbers h.2]
termination_by structural es => es

/-- **Equal values are one but for their objects and numbers**: their lax outlines are one, and
number by number they are equal. -/
theorem Value.equalBy_iff (hsame : KeepsTruth same) : ∀ (v : Value) (strict : Bool) (v' : Value),
    v.equalBy same strict v' = true ↔
      v.outline true (!strict) = v'.outline true (!strict) ∧
        NumbersEqual same (v.numbers (!strict)) (v'.numbers (!strict))
  | .number _, strict, v' => by
    cases strict <;> cases v' <;>
      simp [Value.equalBy, Value.outline, Value.numbers, singleton_iff]
  | .boolean _, strict, v' => by
    cases strict <;> cases v' <;>
      simp [Value.equalBy, Value.outline, Value.numbers, singleton_iff, nil_nil, hsame _ _]
  | .nothing, strict, v' | .string _, strict, v' | .symbol _, strict, v' | .empty, strict, v'
  | .prim _, strict, v' => by
    cases strict <;> cases v' <;> simp [Value.equalBy, Value.outline, Value.numbers, nil_nil]
  | .pair _ h t, strict, v' => by
    cases v' with
    | pair _ h' t' =>
      simp only [Value.equalBy, Bool.and_eq_true, Value.equalBy_iff hsame h true h',
        Value.equalBy_iff hsame t true t', Bool.not_true, Value.outline, Value.numbers,
        Value.pair.injEq, true_and]
      exact append_and_iff Value.zeros_numbers
    | boolean => cases strict <;> simp [Value.equalBy, Value.outline]
    | _ => simp [Value.equalBy, Value.outline]
  | .closure _ ps b, strict, v' => by
    cases v' with
    | closure _ ps' b' =>
      simp only [Value.equalBy, Bool.and_eq_true, beq_iff_eq, Expr.equalAllBy_iff hsame b b',
        Value.outline, Value.numbers, Value.closure.injEq, true_and, and_assoc]
    | boolean => cases strict <;> simp [Value.equalBy, Value.outline]
    | _ => simp [Value.equalBy, Value.outline]
  | .dict _ es, strict, v' => by
    cases v' with
    | dict _ es' =>
      simp only [Value.equalBy, Value.equalEntriesBy_iff hsame es es', Value.outline, Value.numbers,
        Value.dict.injEq, true_and]
    | boolean => cases strict <;> simp [Value.equalBy, Value.outline]
    | _ => simp [Value.equalBy, Value.outline]
  | .code _ e, strict, v' => by
    cases v' with
    | code _ e' =>
      simp only [Value.equalBy, Expr.equalBy_iff hsame e e', Value.outline, Value.numbers,
        Value.code.injEq, true_and]
    | boolean => cases strict <;> simp [Value.equalBy, Value.outline]
    | _ => simp [Value.equalBy, Value.outline]
  | .sequence _ vs, strict, v' => by
    cases v' with
    | sequence _ vs' =>
      simp only [Value.equalBy, Value.equalAllBy_iff hsame vs vs', Value.outline, Value.numbers,
        Value.sequence.injEq, true_and]
    | boolean => cases strict <;> simp [Value.equalBy, Value.outline]
    | _ => simp [Value.equalBy, Value.outline]
termination_by structural v => v

theorem Value.equalAllBy_iff (hsame : KeepsTruth same) : ∀ vs vs' : List Value,
    Value.equalAllBy same vs vs' = true ↔
      Value.outlineAll true vs = Value.outlineAll true vs' ∧
        NumbersEqual same (Value.numbersAll vs) (Value.numbersAll vs')
  | [], [] => by simp [Value.equalAllBy, Value.outlineAll, Value.numbersAll, nil_nil]
  | [], _ :: _ | _ :: _, [] => by simp [Value.equalAllBy, Value.outlineAll]
  | v :: vs, v' :: vs' => by
    simp only [Value.equalAllBy, Bool.and_eq_true, Value.equalBy_iff hsame v false v',
      Bool.not_false, Value.equalAllBy_iff hsame vs vs', Value.outlineAll, Value.numbersAll,
      List.cons.injEq]
    exact append_and_iff Value.zeros_numbers
termination_by structural vs => vs

theorem Value.equalEntriesBy_iff (hsame : KeepsTruth same) : ∀ es es' : List (String × Value),
    Value.equalEntriesBy same es es' = true ↔
      Value.outlineEntries true es = Value.outlineEntries true es' ∧
        NumbersEqual same (Value.numbersEntries es) (Value.numbersEntries es')
  | [], [] => by simp [Value.equalEntriesBy, Value.outlineEntries, Value.numbersEntries, nil_nil]
  | [], _ :: _ | _ :: _, [] => by simp [Value.equalEntriesBy, Value.outlineEntries]
  | (k, v) :: es, (k', v') :: es' => by
    simp only [Value.equalEntriesBy, Bool.and_eq_true, beq_iff_eq,
      Value.equalBy_iff hsame v true v', Bool.not_true, Value.equalEntriesBy_iff hsame es es',
      Value.outlineEntries, Value.numbersEntries, List.cons.injEq, Prod.mk.injEq]
    rw [← and_assoc (a := k = k'), append_and_iff fun h => Value.zeros_numbers h.2]
termination_by structural es => es

end

end

/-- No number in a value is not a number. -/
def Value.NaNFree (v : Value) : Prop :=
  ∀ n ∈ v.numbers false, n.isNaN = false

end Lambdict
