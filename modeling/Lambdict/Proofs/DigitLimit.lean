import Lambdict.Eval.Store
import Lambdict.Proofs.Fresh

/-!
# The digit limit on generated names

A fresh name holds its number, and the number must be within the digit limit.  So a request to a
supply is not always answered.  What decides is the part of the line between two moments of the
supply (`NameSupply.Within`): every number on the way is written, also those that are passed over
because their name is reserved, and a request is answered just when all of them can be written.  The
answer is then the one that is meant (`NameSupply.freshWithin_answers`,
`Expr.renameAllWithin_answers`).

For an evaluation this is a condition on the store and the body that is renamed (`Store.Admits`).  A
store that is not held to the limit admits every body.
-/

namespace Lambdict

namespace NameSupply

/-- **Between two moments of a supply, all numbers can be written.** -/
def Within (s t : NameSupply) : Prop :=
  ∀ n : Int, s.counter < n → n ≤ t.counter → (Number.int n).writable = true

/-- Where no number is given, none is written. -/
theorem Within.of_le {s t : NameSupply} (h : t.counter ≤ s.counter) : s.Within t :=
  fun n hlo hhi => absurd hlo (by omega)

/-- The way to a later moment can be broken anywhere. -/
theorem within_iff {s t u : NameSupply} (hst : s.Le t) (htu : t.Le u) :
    s.Within u ↔ s.Within t ∧ t.Within u := by
  refine ⟨fun h => ⟨fun n hlo hhi => ?_, fun n hlo hhi => ?_⟩, fun ⟨h₁, h₂⟩ n hlo hhi => ?_⟩
  · exact h n hlo (Int.le_trans hhi htu.counter)
  · exact h n (Int.lt_of_le_of_lt hst.counter hlo) hhi
  · by_cases hn : n ≤ t.counter
    · exact h₁ n hlo hn
    · exact h₂ n (by omega) hhi

/-- Whether all numbers can be written depends on the counters alone. -/
theorem within_congr {s t s' t' : NameSupply} (hs : s.counter = s'.counter)
    (ht : t.counter = t'.counter) : s.Within t ↔ s'.Within t' := by
  simp only [Within, hs, ht]

/-- **What a request comes to**: the answer that is meant if all numbers on the way to it can be
written, and the abort otherwise. -/
structure Answers {α : Type} (s : NameSupply) (r : Except Abort (α × NameSupply))
    (p : α × NameSupply) : Prop where
  ok : s.Within p.2 → r = .ok p
  error : ¬ s.Within p.2 → r = .error .longNumber

variable {α β : Type}

theorem Answers.pure (a : α) (s : NameSupply) : s.Answers (.ok (a, s)) (a, s) :=
  ⟨fun _ => rfl, fun h => absurd (Within.of_le (Int.le_refl _)) h⟩

/-- One request after another. -/
theorem Answers.bind {s : NameSupply} {r : Except Abort (α × NameSupply)} {p : α × NameSupply}
    {f : α × NameSupply → Except Abort (β × NameSupply)} {q : β × NameSupply}
    (hr : s.Answers r p) (hp : s.Le p.2) (hq : p.2.Le q.2) (hf : p.2.Answers (f p) q) :
    s.Answers (r >>= f) q := by
  refine ⟨fun h => ?_, fun h => ?_⟩
  · obtain ⟨h₁, h₂⟩ := (within_iff hp hq).1 h
    rw [hr.ok h₁]
    exact hf.ok h₂
  · rw [within_iff hp hq] at h
    by_cases h₁ : s.Within p.2
    · rw [hr.ok h₁]
      exact hf.error fun h₂ => h ⟨h₁, h₂⟩
    · rw [hr.error h₁]
      rfl

/-- A search that meets only numbers that can be written finds the first free one. -/
theorem firstFreeWithin_ok (reserved : NameSet) (stem : String) (k : Nat) (n : Int)
    (h : ∀ i, n ≤ i → i ≤ firstFree reserved stem k n → (Number.int i).writable = true) :
    firstFreeWithin reserved stem k n =
      .ok (numbered stem (firstFree reserved stem k n), firstFree reserved stem k n) := by
  induction k generalizing n with
  | zero =>
    have hn := h n (Int.le_refl n) (Int.le_refl n)
    simp only [firstFreeWithin, numberedWithin, hn, if_true]
    rfl
  | succ k ih =>
    have hn := h n (Int.le_refl n) (le_firstFree reserved stem (k + 1) n)
    simp only [firstFreeWithin, numberedWithin, hn, if_true]
    by_cases hmem : numbered stem n ∈ reserved
    · simp only [firstFree, hmem, if_true] at h ⊢
      exact (if_pos hmem).trans (ih (n + 1) fun i hlo hhi => h i (by omega) hhi)
    · simp only [firstFree, hmem, if_false]
      exact if_neg hmem

/-- A search that meets a number that cannot be written ends there. -/
theorem firstFreeWithin_error (reserved : NameSet) (stem : String) (k : Nat) (n : Int) {i : Int}
    (hlo : n ≤ i) (hhi : i ≤ firstFree reserved stem k n)
    (hi : (Number.int i).writable = false) :
    firstFreeWithin reserved stem k n = .error .longNumber := by
  induction k generalizing n with
  | zero =>
    obtain rfl : i = n := Int.le_antisymm hhi hlo
    simp only [firstFreeWithin, numberedWithin, hi]
    rfl
  | succ k ih =>
    cases hn : (Number.int n).writable with
    | false =>
      simp only [firstFreeWithin, numberedWithin, hn]
      rfl
    | true =>
      have hne : n ≠ i := fun h => by simp [h, hi] at hn
      simp only [firstFreeWithin, numberedWithin, hn, if_true]
      by_cases hmem : numbered stem n ∈ reserved
      · simp only [firstFree, hmem, if_true] at hhi
        exact (if_pos hmem).trans (ih (n + 1) (by omega) hhi)
      · simp only [firstFree, hmem, if_false] at hhi
        omega

/-- **A request for a fresh name** is answered with the name that is meant, if all numbers up to its
own can be written. -/
theorem freshWithin_answers (s : NameSupply) (base : String) :
    s.Answers (s.freshWithin base) (s.fresh base) := by
  refine ⟨fun h => ?_, fun h => ?_⟩
  · unfold freshWithin
    rw [firstFreeWithin_ok _ _ _ _ fun i hlo hhi => h i (by omega) hhi]
    rfl
  · simp only [Within, not_forall] at h
    obtain ⟨i, hlo, hhi, hi⟩ := h
    unfold freshWithin
    rw [firstFreeWithin_error _ _ _ _ (by omega) hhi (Bool.eq_false_iff.2 hi)]
    rfl

theorem freshAllWithin_answers (s : NameSupply) (xs : List String) :
    s.Answers (s.freshAllWithin xs) (s.freshAll xs) := by
  induction xs generalizing s with
  | nil => exact .pure [] s
  | cons x xs ih =>
    exact (s.freshWithin_answers x).bind (s.le_fresh x) (le_freshAll _ xs)
      ((ih _).bind (le_freshAll _ xs) (.refl _) (.pure _ _))

/-- Below the limit all numbers from zero on can be written. -/
theorem within_of_counter_lt {s t : NameSupply} (hs : 0 ≤ s.counter)
    (ht : t.counter < Double.tenPow Number.digitLimit) : s.Within t := by
  intro n hlo hhi
  rw [Number.writable, decide_eq_true_iff]
  omega

/-! ### The last number -/

/-- The supply that has given the last number within the limit. -/
def last (reserved : NameSet) : NameSupply :=
  ⟨Double.tenPow Number.digitLimit - 1, reserved⟩

@[simp]
theorem reserved_last (reserved : NameSet) : (last reserved).reserved = reserved := rfl

/-- After the last number none can be written. -/
theorem not_within_last {reserved : NameSet} {t : NameSupply}
    (h : (last reserved).counter < t.counter) : ¬ (last reserved).Within t := by
  intro hw
  have hlimit (k : Nat) (hk : Double.tenPow Number.digitLimit ≤ k) :
      (Number.int k).writable = false := by
    rw [Number.writable, decide_eq_false_iff_not]
    omega
  have hlo : (last reserved).counter < Double.tenPow Number.digitLimit :=
    Int.sub_one_lt_of_le (Int.le_refl _)
  have hhi : Double.tenPow Number.digitLimit ≤ t.counter := by
    have : (last reserved).counter + 1 ≤ t.counter := h
    rwa [last, Int.sub_add_cancel] at this
  exact Bool.false_ne_true ((hlimit _ (Nat.le_refl _)).symm.trans (hw _ hlo hhi))

end NameSupply

/-! ## Renaming -/

namespace Expr

open NameSupply (Answers freshAllWithin_answers le_freshAll)

mutual

theorem renameWithin_answers : ∀ (e : Expr) (s : NameSupply),
    s.Answers (e.renameWithin s) (e.rename s)
  | .lambda ps b, s =>
    (renameAllWithin_answers b s).bind (le_renameAll b s) (le_freshAll _ ps)
      ((freshAllWithin_answers _ ps).bind (le_freshAll _ ps) (.refl _) (.pure _ _))
  | .cond t c a, s =>
    (renameWithin_answers t s).bind (le_rename t s) ((le_rename c _).trans (le_rename a _))
      ((renameWithin_answers c _).bind (le_rename c _) (le_rename a _)
        ((renameWithin_answers a _).bind (le_rename a _) (.refl _) (.pure _ _)))
  | .app f es, s =>
    (renameWithin_answers f s).bind (le_rename f s) (le_renameAll es _)
      ((renameAllWithin_answers es _).bind (le_renameAll es _) (.refl _) (.pure _ _))
  | .define _ e, s =>
    (renameWithin_answers e s).bind (le_rename e s) (.refl _) (.pure _ _)
  | .dict es, s =>
    (renameEntriesWithin_answers es s).bind (le_renameEntries es s) (.refl _) (.pure _ _)
  | .number _, _ | .boolean _, _ | .string _, _ | .var _, _ | .prim _, _ | .quote _, _
  | .foreign _, _ => .pure _ _

/-- **A renaming** comes to the expressions that are meant, if all numbers up to the last one that
it draws can be written. -/
theorem renameAllWithin_answers : ∀ (es : List Expr) (s : NameSupply),
    s.Answers (renameAllWithin es s) (renameAll es s)
  | [], s => .pure [] s
  | e :: es, s =>
    (renameWithin_answers e s).bind (le_rename e s) (le_renameAll es _)
      ((renameAllWithin_answers es _).bind (le_renameAll es _) (.refl _) (.pure _ _))

theorem renameEntriesWithin_answers : ∀ (es : List (String × Expr)) (s : NameSupply),
    s.Answers (renameEntriesWithin es s) (renameEntries es s)
  | [], s => .pure [] s
  | (_, e) :: es, s =>
    (renameWithin_answers e s).bind (le_rename e s) (le_renameEntries es _)
      ((renameEntriesWithin_answers es _).bind (le_renameEntries es _) (.refl _) (.pure _ _))

end

end Expr

/-! ## Stores -/

/-- The store after a body was renamed. -/
def Store.renaming (s : Store) (b : List Expr) : Store :=
  { s with names := (Expr.renameAll b s.names).2 }

/-- **A store admits a body**: it is not held to the digit limit, or the numbers of all names that
renaming the body draws are within it. -/
def Store.Admits (s : Store) (b : List Expr) : Prop :=
  s.limited = true → s.names.Within (Expr.renameAll b s.names).2

theorem Store.admits_of_unlimited {s : Store} (h : s.limited = false) (b : List Expr) :
    s.Admits b :=
  fun hl => absurd (hl.symm.trans h) Bool.noConfusion

namespace Eval

/-- A body that is admitted is renamed as it is meant. -/
theorem renameBody_of_admits {s : Store} {b : List Expr} (h : s.Admits b) :
    renameBody b s = some (.ok (Expr.renameAll b s.names).1, s.renaming b) := by
  unfold renameBody
  by_cases hl : s.limited = true
  · rw [if_pos hl, (Expr.renameAllWithin_answers b s.names).ok (h hl)]
    rfl
  · rw [if_neg hl]
    rfl

/-- A body that is not admitted ends the evaluation, and the store stays as it was. -/
theorem renameBody_of_not_admits {s : Store} {b : List Expr} (h : ¬ s.Admits b) :
    renameBody b s = some (.error (.abort .longNumber), s) := by
  obtain ⟨hl, hw⟩ : s.limited = true ∧ ¬ s.names.Within (Expr.renameAll b s.names).2 := by
    simpa only [Store.Admits, Classical.not_imp] using h
  unfold renameBody
  rw [if_pos hl, (Expr.renameAllWithin_answers b s.names).error hw]

/-- A body is renamed as it is meant, or the digit limit is met. -/
theorem renameBody_cases (b : List Expr) (s : Store) :
    renameBody b s = some (.ok (Expr.renameAll b s.names).1, s.renaming b) ∨
      renameBody b s = some (.error (.abort .longNumber), s) := by
  by_cases h : s.Admits b
  · exact .inl (renameBody_of_admits h)
  · exact .inr (renameBody_of_not_admits h)

end Eval

end Lambdict
