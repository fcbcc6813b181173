import Lambdict.Eval.Basic

/-!
# Depth

The evaluator is given a bound on how deep closure calls may nest, and says nothing when the bound
is met.  Here the bound is shown to be no part of the meaning: an evaluation that ends within one
depth ends within every greater depth, in the same way (`Value.settles_applyAt`,
`runProgram_of_le`).  So what a program comes to (`ComesTo`) is one thing or nothing.

The argument does not look at closures at all.  `Eval.Approx x y` says that `y` ends wherever `x`
does, in the same way; the evaluator keeps it when its way of applying values is replaced by one
that ends more often.
-/

namespace Lambdict

namespace Eval

variable {α β : Type}

/-- `x` is `y`, but may give up where `y` goes on. -/
def Approx (x y : Eval α) : Prop :=
  ∀ s r, x s = some r → y s = some r

/-- An evaluation approximates itself. -/
theorem Approx.refl (x : Eval α) : Approx x x :=
  fun _ _ h => h

/-- What approximates an approximation approximates. -/
theorem Approx.trans {x y z : Eval α} (hxy : Approx x y) (hyz : Approx y z) : Approx x z :=
  fun s r h => hyz s r (hxy s r h)

/-- A sequence of approximations approximates the sequence. -/
theorem Approx.bind {x y : Eval α} {f g : α → Eval β} (hx : Approx x y)
    (hf : ∀ a, Approx (f a) (g a)) : Approx (x >>= f) (y >>= g) := by
  intro s r h
  rw [bind_apply] at h ⊢
  cases hxs : x s with
  | none => simp [hxs] at h
  | some o =>
    rw [hx s o hxs]
    rw [hxs] at h
    obtain ⟨_ | a, t⟩ := o
    · exact h
    · exact hf a t r h

/-- A family of evaluations that only end more often as their index grows. -/
def Settles (y : Nat → Eval α) : Prop :=
  ∀ ⦃j k : Nat⦄, j ≤ k → Approx (y j) (y k)

/-- What does not depend on the depth settles. -/
theorem Settles.const (x : Eval α) : Settles fun _ => x :=
  fun _ _ _ => Approx.refl x

/-- A sequence of evaluations settles if its parts do. -/
theorem Settles.bind {y : Nat → Eval α} {g : Nat → α → Eval β} (hy : Settles y)
    (hg : ∀ a, Settles fun k => g k a) : Settles fun k => y k >>= g k :=
  fun _ _ hjk => (hy hjk).bind fun a => hg a hjk

end Eval

open Eval (Approx Settles)

namespace Expr

variable {A B : Applier}

mutual

/-- **With an applier that goes on further, an evaluation goes on further**, and comes to nothing
else. -/
theorem evalWith_approx (hA : ∀ proc args, Approx (A proc args) (B proc args))
    (env : Environment) :
    ∀ e : Expr, Approx (e.evalWith A env) (e.evalWith B env)
  | .number _ | .boolean _ | .string _ | .prim _ | .quote _ | .var _ | .lambda _ _ | .define _ _
  | .foreign _ => Approx.refl _
  | .cond t c a => by
    simp only [evalWith]
    refine (evalWith_approx hA env t).bind fun v => ?_
    split
    · exact evalWith_approx hA env a
    · exact evalWith_approx hA env c
  | .app f es => by
    simp only [evalWith]
    exact (evalWith_approx hA env f).bind fun proc =>
      (evalEachWith_approx hA env es).bind fun args => hA proc args
  | .dict es => by
    simp only [evalWith]
    exact (evalEntriesWith_approx hA env es).bind fun _ => Approx.refl _

theorem evalEachWith_approx (hA : ∀ proc args, Approx (A proc args) (B proc args))
    (env : Environment) :
    ∀ es : List Expr, Approx (evalEachWith A env es) (evalEachWith B env es)
  | [] => Approx.refl _
  | e :: es => by
    simp only [evalEachWith]
    exact (evalWith_approx hA env e).bind fun _ =>
      (evalEachWith_approx hA env es).bind fun _ => Approx.refl _

theorem evalEntriesWith_approx (hA : ∀ proc args, Approx (A proc args) (B proc args))
    (env : Environment) :
    ∀ es : List (String × Expr), Approx (evalEntriesWith A env es) (evalEntriesWith B env es)
  | [] => Approx.refl _
  | (_, e) :: es => by
    simp only [evalEntriesWith]
    exact (evalWith_approx hA env e).bind fun _ => (Approx.refl _).bind fun _ =>
      (evalEntriesWith_approx hA env es).bind fun _ => Approx.refl _

end

theorem evalSeqWith_approx (hA : ∀ proc args, Approx (A proc args) (B proc args))
    (env : Environment) (es : List Expr) :
    Approx (evalSeqWith A env es) (evalSeqWith B env es) := by
  fun_induction evalSeqWith A env es with
  | case1 => exact Approx.refl _
  | case2 env x e =>
    simp only [evalSeqWith]
    exact (evalWith_approx hA env e).bind fun _ => Approx.refl _
  | case3 env e he =>
    simp only [evalSeqWith]
    exact evalWith_approx hA env e
  | case4 env x e es hes ih =>
    simp only [evalSeqWith]
    exact (evalWith_approx hA env e).bind fun v => ih v
  | case5 env e es hes _ he ih =>
    simp only [evalSeqWith]
    exact (evalWith_approx hA env e).bind fun _ => ih

end Expr

namespace Value

/-- **One more level of calls changes nothing that had ended.** -/
theorem applyAt_approx_succ (depth : Nat) (proc : Value) (args : List Value) :
    Approx (proc.applyAt depth args) (proc.applyAt (depth + 1) args) := by
  induction depth generalizing proc args with
  | zero =>
    cases proc
    case closure => intro s r h; simp [applyAt] at h
    all_goals exact Approx.refl _
  | succ depth ih =>
    cases proc
    case closure id params body =>
      rw [applyAt, applyAt]
      split
      · exact (Approx.refl _).bind fun _ => (Approx.refl _).bind fun _ =>
          Expr.evalSeqWith_approx ih _ _
      · exact Approx.refl _
    all_goals exact Approx.refl _

/-- A call settles: a greater depth changes nothing once it has ended. -/
theorem settles_applyAt (proc : Value) (args : List Value) :
    Settles fun depth => proc.applyAt depth args := by
  intro j k hjk
  induction hjk with
  | refl => exact Approx.refl _
  | step _ ih => exact ih.trans (applyAt_approx_succ _ proc args)

end Value

namespace Expr

variable (env : Environment)

/-- The evaluation of an expression settles. -/
theorem settles_evalAt (e : Expr) : Settles fun depth => e.evalAt depth env :=
  fun _ _ hjk => evalWith_approx (fun proc args => Value.settles_applyAt proc args hjk) env e

theorem settles_evalEach (es : List Expr) :
    Settles fun depth => evalEachWith (Value.applyAt depth) env es :=
  fun _ _ hjk => evalEachWith_approx (fun proc args => Value.settles_applyAt proc args hjk) env es

theorem settles_evalEntries (es : List (String × Expr)) :
    Settles fun depth => evalEntriesWith (Value.applyAt depth) env es :=
  fun _ _ hjk =>
    evalEntriesWith_approx (fun proc args => Value.settles_applyAt proc args hjk) env es

/-- The evaluation of a sequence settles. -/
theorem settles_evalSeqAt (es : List Expr) : Settles fun depth => evalSeqAt depth env es :=
  fun _ _ hjk => evalSeqWith_approx (fun proc args => Value.settles_applyAt proc args hjk) env es

end Expr

/-! ## Whole programs -/

/-- A program that ends within a depth ends in the same way within every greater one. -/
theorem runProgram_of_le {j k : Nat} (hjk : j ≤ k) {p : List Expr}
    {r : Except Error Value × Store} (h : runProgram j p = some r) : runProgram k p = some r := by
  unfold runProgram Eval.reserving at h ⊢
  cases hn : collectNames (Expr.placeAll 0 p).1 with
  | error fault => simpa [hn] using h
  | ok names =>
    simp only [hn] at h ⊢
    exact Expr.settles_evalSeqAt .empty _ hjk _ _ h

/-- **What a program comes to**: the result and the store at the end of its run, within some
depth. -/
def ComesTo (p : List Expr) (r : Except Error Value × Store) : Prop :=
  ∃ depth, runProgram depth p = some r

/-- A program comes to at most one end. -/
theorem ComesTo.unique {p : List Expr} {r r' : Except Error Value × Store} (h : ComesTo p r)
    (h' : ComesTo p r') : r = r' := by
  obtain ⟨j, hj⟩ := h
  obtain ⟨k, hk⟩ := h'
  have hj' := runProgram_of_le (Nat.le_max_left j k) hj
  have hk' := runProgram_of_le (Nat.le_max_right j k) hk
  exact Option.some.inj (hj'.symm.trans hk')

end Lambdict
