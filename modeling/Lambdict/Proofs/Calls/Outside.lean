import Lambdict.Proofs.Calls.Basic

/-!
# What is seen of an environment

Definitions bind names in an environment.  Evaluating an expression looks up in its environment the
names that occur outside the lambdas of the expression (`Expr.outside`), and no others: where two
environments say the same of these, the expression evaluates alike and performs the same calls
(`Expr.evalAt_outside`).

A sequence goes on in an environment that its own definitions have extended, so of its names only
those count that it has not defined by then (`Expr.outsideSeq`).  The body of a closure is such a
sequence, evaluated where nothing is bound.  Hence a definition is seen by what follows it outside
lambdas, and by no closure body, be it a definition of the program or one inside another body.
-/

namespace Lambdict

namespace Environment

/-- Two environments that say the same of some names. -/
def AgreeOn (xs : List String) (env env' : Environment) : Prop :=
  ∀ x ∈ xs, env.lookup? x = env'.lookup? x

variable {xs ys : List String} {env env' : Environment}

theorem agreeOn_append :
    AgreeOn (xs ++ ys) env env' ↔ AgreeOn xs env env' ∧ AgreeOn ys env env' :=
  List.forall_mem_append

theorem AgreeOn.lookup_eq {x : String} (h : AgreeOn [x] env env') :
    env.lookup x = env'.lookup x := by
  simp only [lookup, h x (List.mem_singleton_self x)]

/-- After a definition of a name in both environments, nothing is asked of that name. -/
theorem AgreeOn.extend {x : String} (h : AgreeOn (xs.filter fun y => y ≠ x) env env') (v : Value) :
    AgreeOn xs (env.extend x v) (env'.extend x v) := by
  intro y hy
  by_cases hyx : y = x
  · subst hyx
    rw [lookup?_extend_self, lookup?_extend_self]
  · rw [lookup?_extend_of_ne env v hyx, lookup?_extend_of_ne env' v hyx]
    exact h y (List.mem_filter.2 ⟨hy, by simpa using hyx⟩)

/-- A definition changes nothing for other names. -/
theorem agreeOn_extend {x : String} (h : x ∉ xs) (env : Environment) (v : Value) :
    AgreeOn xs (env.extend x v) env := by
  intro y hy
  refine lookup?_extend_of_ne env v ?_
  rintro rfl
  exact h hy

end Environment

open Environment (AgreeOn agreeOn_append)

namespace Expr

/-! ## Names outside lambdas -/

mutual

/-- **The names outside the lambdas** of an expression: those of its variables that stand in no
lambda. -/
def outside : Expr → List String
  | .var x => [x]
  | .cond t c a => t.outside ++ (c.outside ++ a.outside)
  | .app f es => f.outside ++ outsideAll es
  | .define _ e => e.outside
  | .dict es => outsideEntries es
  | .lambda _ _ | .number _ | .boolean _ | .string _ | .prim _ | .quote _ | .foreign _ => []

/-- The names outside the lambdas of several expressions. -/
def outsideAll : List Expr → List String
  | [] => []
  | e :: es => e.outside ++ outsideAll es

/-- The names outside the lambdas in the values of a dictionary literal. -/
def outsideEntries : List (String × Expr) → List String
  | [] => []
  | (_, e) :: es => e.outside ++ outsideEntries es

end

/-- The names outside the lambdas of a sequence that it has not defined by then. -/
def outsideSeq : List Expr → List String
  | [] => []
  | .define x e :: es => e.outside ++ (outsideSeq es).filter fun y => y ≠ x
  | e :: es => e.outside ++ outsideSeq es

/-! ## Evaluation -/

section

variable (A : Applier) (C : Value → List Value → Calls) {env env' : Environment}

mutual

theorem evalWith_congr : ∀ {e : Expr}, AgreeOn e.outside env env' →
    e.evalWith A env = e.evalWith A env'
  | .var x, h => by rw [evalWith, evalWith, h.lookup_eq]
  | .cond t c a, h => by
    obtain ⟨ht, h⟩ := agreeOn_append.1 h
    obtain ⟨hc, ha⟩ := agreeOn_append.1 h
    rw [evalWith, evalWith, evalWith_congr ht, evalWith_congr hc, evalWith_congr ha]
  | .app f es, h => by
    obtain ⟨hf, hes⟩ := agreeOn_append.1 h
    rw [evalWith, evalWith, evalWith_congr hf, evalEachWith_congr hes]
  | .dict es, h => by rw [evalWith, evalWith, evalEntriesWith_congr h]
  | .lambda _ _, _ | .define _ _, _ | .number _, _ | .boolean _, _ | .string _, _ | .prim _, _
  | .quote _, _ | .foreign _, _ => rfl

theorem evalEachWith_congr : ∀ {es : List Expr}, AgreeOn (outsideAll es) env env' →
    evalEachWith A env es = evalEachWith A env' es
  | [], _ => rfl
  | e :: es, h => by
    obtain ⟨he, hes⟩ := agreeOn_append.1 h
    rw [evalEachWith, evalEachWith, evalWith_congr he, evalEachWith_congr hes]

theorem evalEntriesWith_congr : ∀ {es : List (String × Expr)},
    AgreeOn (outsideEntries es) env env' → evalEntriesWith A env es = evalEntriesWith A env' es
  | [], _ => rfl
  | (k, e) :: es, h => by
    obtain ⟨he, hes⟩ := agreeOn_append.1 h
    rw [evalEntriesWith, evalEntriesWith, evalWith_congr he, evalEntriesWith_congr hes]

end

mutual

theorem callsWith_congr : ∀ {e : Expr}, AgreeOn e.outside env env' →
    e.callsWith A C env = e.callsWith A C env'
  | .cond t c a, h => by
    obtain ⟨ht, h⟩ := agreeOn_append.1 h
    obtain ⟨hc, ha⟩ := agreeOn_append.1 h
    rw [callsWith, callsWith, callsWith_congr ht, evalWith_congr A ht, callsWith_congr hc,
      callsWith_congr ha]
  | .app f es, h => by
    obtain ⟨hf, hes⟩ := agreeOn_append.1 h
    rw [callsWith, callsWith, callsWith_congr hf, evalWith_congr A hf, callsEachWith_congr hes,
      evalEachWith_congr A hes]
  | .dict es, h => by rw [callsWith, callsWith, callsEntriesWith_congr h]
  | .var _, _ | .lambda _ _, _ | .define _ _, _ | .number _, _ | .boolean _, _ | .string _, _
  | .prim _, _ | .quote _, _ | .foreign _, _ => rfl

theorem callsEachWith_congr : ∀ {es : List Expr}, AgreeOn (outsideAll es) env env' →
    callsEachWith A C env es = callsEachWith A C env' es
  | [], _ => rfl
  | e :: es, h => by
    obtain ⟨he, hes⟩ := agreeOn_append.1 h
    rw [callsEachWith, callsEachWith, callsWith_congr he, evalWith_congr A he,
      callsEachWith_congr hes]

theorem callsEntriesWith_congr : ∀ {es : List (String × Expr)},
    AgreeOn (outsideEntries es) env env' →
      callsEntriesWith A C env es = callsEntriesWith A C env' es
  | [], _ => rfl
  | (_, e) :: es, h => by
    obtain ⟨he, hes⟩ := agreeOn_append.1 h
    rw [callsEntriesWith, callsEntriesWith, callsWith_congr he, evalWith_congr A he,
      callsEntriesWith_congr hes]

end

/-- An expression in a sequence is followed by more of it, which may see more or fewer names. -/
theorem agreeOn_outsideSeq_cons {e : Expr} {es : List Expr} (he : ∀ x d, e ≠ .define x d)
    (h : AgreeOn (outsideSeq (e :: es)) env env') :
    AgreeOn e.outside env env' ∧ AgreeOn (outsideSeq es) env env' := by
  cases e with
  | define x d => exact absurd rfl (he x d)
  | _ => exact agreeOn_append.1 h

theorem evalSeqWith_congr {es : List Expr} (h : AgreeOn (outsideSeq es) env env') :
    evalSeqWith A env es = evalSeqWith A env' es := by
  fun_induction evalSeqWith A env es generalizing env' with
  | case1 => rfl
  | case2 env x e =>
    rw [evalSeqWith, evalWith_congr A (agreeOn_append.1 h).1]
  | case3 env e he =>
    simp only [evalSeqWith]
    exact evalWith_congr A (agreeOn_outsideSeq_cons he h).1
  | case4 env x e es hes ih =>
    -- both environments go on with the same value of the name
    obtain ⟨h, hrest⟩ := agreeOn_append.1 h
    simp only [evalSeqWith, evalWith_congr A h, ih _ (hrest.extend _)]
  | case5 env e es hes _ he ih =>
    obtain ⟨h, hrest⟩ := agreeOn_outsideSeq_cons he h
    simp only [evalSeqWith, evalWith_congr A h, ih hrest]

theorem callsSeqWith_congr {es : List Expr} (h : AgreeOn (outsideSeq es) env env') :
    callsSeqWith A C env es = callsSeqWith A C env' es := by
  fun_induction callsSeqWith A C env es generalizing env' with
  | case1 => rfl
  | case2 env x e es ih =>
    obtain ⟨h, hrest⟩ := agreeOn_append.1 h
    simp only [callsSeqWith, callsWith_congr A C h, evalWith_congr A h, ih _ (hrest.extend _)]
  | case3 env e es he ih =>
    obtain ⟨h, hrest⟩ := agreeOn_outsideSeq_cons he h
    simp only [callsSeqWith_cons A C env' he, callsWith_congr A C h, evalWith_congr A h, ih hrest]

end

/-- The calls of a sequence, with closure calls nested at most `depth` deep. -/
def callsSeqAt (depth : Nat) (env : Environment) (es : List Expr) : Calls :=
  callsSeqWith (Value.applyAt depth) (Value.callsAt depth) env es

/-- **Only names outside lambdas are seen**.  Where two environments say the same of the names of an
expression outside its lambdas, its evaluation does the same in both: it comes to the same value or
condition, leaves the same supply, and performs the same calls, each with the same supply.  Of a
sequence this holds for the names that it has not defined by then, so what defines another name
before it, in the program or in the body of a closure, has no part in its evaluation nor in any call
that it performs. -/
theorem evalAt_outside (depth : Nat) :
    (∀ (e : Expr) (env env' : Environment), AgreeOn e.outside env env' →
      ∀ s, e.evalAt depth env s = e.evalAt depth env' s ∧
        e.callsAt depth env s = e.callsAt depth env' s) ∧
    (∀ (es : List Expr) (env env' : Environment), AgreeOn (outsideSeq es) env env' →
      ∀ s, evalSeqAt depth env es s = evalSeqAt depth env' es s ∧
        callsSeqAt depth env es s = callsSeqAt depth env' es s) ∧
    (∀ (es : List Expr) (env : Environment) (x : String) (v : Value), x ∉ outsideSeq es →
      ∀ s, evalSeqAt depth (env.extend x v) es s = evalSeqAt depth env es s ∧
        callsSeqAt depth (env.extend x v) es s = callsSeqAt depth env es s) := by
  have hexpr : ∀ (e : Expr) (env env' : Environment), AgreeOn e.outside env env' →
      ∀ s, e.evalAt depth env s = e.evalAt depth env' s ∧
        e.callsAt depth env s = e.callsAt depth env' s := fun e env env' h s =>
    ⟨congrFun (evalWith_congr (Value.applyAt depth) h) s,
      congrFun (callsWith_congr (Value.applyAt depth) (Value.callsAt depth) h) s⟩
  have hseq : ∀ (es : List Expr) (env env' : Environment), AgreeOn (outsideSeq es) env env' →
      ∀ s, evalSeqAt depth env es s = evalSeqAt depth env' es s ∧
        callsSeqAt depth env es s = callsSeqAt depth env' es s := fun es env env' h s =>
    ⟨congrFun (evalSeqWith_congr (Value.applyAt depth) h) s,
      congrFun (callsSeqWith_congr (Value.applyAt depth) (Value.callsAt depth) h) s⟩
  exact ⟨hexpr, hseq, fun es env x v hx => hseq es _ _ (Environment.agreeOn_extend hx env v)⟩

/-- A closure whose body names `g` is called where `g` is defined and where it is not.  The call
fails alike, since `g` stands in no expression outside the closure. -/
theorem evalAt_outside_body :
    let f : Value := .closure (.given 0) ["x"] [.var "g"]
    let env : Environment := Environment.empty.extend "f" f
    let e : Expr := .app (.var "f") [.string "a"]
    AgreeOn e.outside (env.extend "g" (.boolean true)) env ∧
      e.evalAt 1 (env.extend "g" (.boolean true)) (.start (.start ∅)) =
        e.evalAt 1 env (.start (.start ∅)) ∧
      (e.evalAt 1 env (.start (.start ∅))).map (·.1) =
        some (.error (.condition (.unbound "g"))) := by
  intro f env e
  have h : AgreeOn e.outside (env.extend "g" (.boolean true)) env :=
    Environment.agreeOn_extend (by decide) env _
  exact ⟨h, ((evalAt_outside 1).1 e _ _ h _).1, by rfl⟩

end Expr

end Lambdict
