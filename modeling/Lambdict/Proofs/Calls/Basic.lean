import Lambdict.Proofs.Depth
import Lambdict.Proofs.Fresh
import Lambdict.Session

/-!
# The calls of a session

A session applies closures, one call inside another and one after another.  Here these calls are
listed in the order in which they are performed, each with the supply of names as it is when the
closure is applied (`Session.calls`).

The list follows the evaluator form by form: the calls of a form are those of its parts, as long as
these give values, and then those of what it does with the values.  A call is listed before the
calls that its body performs, and also when it fails.  An evaluation that does not end within its
depth has performed calls all the same, and they are listed too.  No call is left out
(`Expr.evalWith_applyWhere`).
-/

namespace Lambdict

/-- **The call of a closure**: its parameters and body, the arguments, and the supply of names when
it is applied. -/
structure Call where
  names : NameSupply
  params : List String
  body : List Expr
  args : List Value

namespace Call

/-- The names that a call draws.  One with a wrong number of arguments fails before it draws any. -/
def drawn (c : Call) : List String :=
  if c.args.length = c.params.length then Expr.drawnAll c.body c.names else []

/-- The supply that a call leaves to what its body performs. -/
def after (c : Call) : NameSupply :=
  if c.args.length = c.params.length then (Expr.renameAll c.body c.names).2 else c.names

/-- A call draws from the supply that it is given. -/
theorem le_after (c : Call) : c.names.Le c.after := by
  unfold after
  split
  · exact Expr.le_renameAll c.body c.names
  · exact .refl _

/-- The names that a call lists are those that it draws. -/
theorem after_drawn (c : Call) : c.names.DrawnAll c.after c.drawn := by
  unfold after drawn
  split
  · exact Expr.renameAll_drawn c.body c.names
  · exact .nil _ _

end Call

/-- The calls that an evaluation performs when it begins with a store. -/
abbrev Calls := Store → List Call

namespace Calls

/-- No calls at all. -/
def none : Calls := fun _ => []

/-- The calls of an evaluation, and those of what goes on with its value. -/
def andThen {α : Type} (calls : Calls) (x : Eval α) (rest : α → Calls) : Calls := fun s =>
  calls s ++
    match x s with
    | some (.ok a, s') => rest a s'
    | _ => []

/-- Nothing is listed after an evaluation that nothing follows. -/
theorem andThen_none {α : Type} (calls : Calls) (x : Eval α) :
    (calls.andThen x fun _ => none) = calls := by
  funext s
  simp only [andThen, none]
  split <;> simp

end Calls

namespace Expr

mutual

/-- The calls of an expression, given how values are applied and which calls that performs. -/
def callsWith (apply : Applier) (calls : Value → List Value → Calls) (env : Environment) :
    Expr → Calls
  | .cond t c a =>
    (t.callsWith apply calls env).andThen (t.evalWith apply env) fun v =>
      if v.isFalse then a.callsWith apply calls env else c.callsWith apply calls env
  | .app f es =>
    (f.callsWith apply calls env).andThen (f.evalWith apply env) fun proc =>
      (callsEachWith apply calls env es).andThen (evalEachWith apply env es) fun args =>
        calls proc args
  | .dict es => callsEntriesWith apply calls env es
  | .number _ | .boolean _ | .string _ | .var _ | .prim _ | .quote _ | .lambda _ _ | .define _ _
  | .foreign _ => .none

/-- The calls of several expressions. -/
def callsEachWith (apply : Applier) (calls : Value → List Value → Calls) (env : Environment) :
    List Expr → Calls
  | [] => .none
  | e :: es =>
    (e.callsWith apply calls env).andThen (e.evalWith apply env) fun _ =>
      callsEachWith apply calls env es

/-- The calls of the entries of a dictionary literal. -/
def callsEntriesWith (apply : Applier) (calls : Value → List Value → Calls) (env : Environment) :
    List (String × Expr) → Calls
  | [] => .none
  | (_, e) :: es =>
    (e.callsWith apply calls env).andThen (e.evalWith apply env) fun _ =>
      Calls.none.andThen Eval.newIdentity fun _ => callsEntriesWith apply calls env es

end

/-- The calls of a sequence. -/
def callsSeqWith (apply : Applier) (calls : Value → List Value → Calls) (env : Environment) :
    List Expr → Calls
  | [] => .none
  | .define x e :: es =>
    (e.callsWith apply calls env).andThen (e.evalWith apply env) fun v =>
      callsSeqWith apply calls (env.extend x v) es
  | e :: es =>
    (e.callsWith apply calls env).andThen (e.evalWith apply env) fun _ =>
      callsSeqWith apply calls env es

end Expr

/-- The calls of applying a value, with closure calls nested at most `depth` deep. -/
def Value.callsAt (depth : Nat) (proc : Value) (args : List Value) : Calls :=
  match proc with
  | .closure _ params body =>
    match depth with
    | 0 => .none
    | depth + 1 => fun s =>
      ⟨s.names, params, body, args⟩ ::
        if args.length = params.length then
          (Calls.none.andThen (Eval.renameBody body) fun renamed =>
            Calls.none.andThen (Eval.ofCondition (Value.literals? args)) fun literals =>
              Expr.callsSeqWith (Value.applyAt depth) (callsAt depth) .empty
                (Expr.substSeq (.ofLists params literals) renamed)) s
        else []
  | _ => .none

/-- The calls of an expression, with closure calls nested at most `depth` deep. -/
def Expr.callsAt (depth : Nat) (env : Environment) (e : Expr) : Calls :=
  e.callsWith (Value.applyAt depth) (Value.callsAt depth) env

namespace Session

/-- The calls of forms that a session evaluates one after another. -/
def formCalls (depth : Nat) (s : Session) : List Expr → List Call
  | [] => []
  | .define x e :: es =>
    e.callsAt depth s.env s.store ++
      match e.evalAt depth s.env s.store with
      | some (.ok v, store) => formCalls depth { s with store, env := s.env.extend x v } es
      | _ => []
  | e :: es =>
    e.callsAt depth s.env s.store ++
      match e.evalAt depth s.env s.store with
      | some (.ok _, store) => formCalls depth { s with store } es
      | _ => []

/-- The calls of a text. -/
def textCalls (depth : Nat) (s : Session) (text : String) : List Call :=
  match s.prepare text with
  | .error _ => []
  | .ok program =>
    match collectNames program with
    | .error _ => []
    | .ok names =>
      let (placed, s') := s.adopt names program
      formCalls depth s' placed

/-- The session after texts that it is given one after another.  A text that fails does not end the
session; one that does not end within its depth does. -/
def evalTexts (depth : Nat) (s : Session) : List String → Option Session
  | [] => some s
  | text :: texts =>
    match s.eval depth text with
    | some (_, s') => evalTexts depth s' texts
    | none => none

/-- **The calls of a session** that is given texts one after another. -/
def calls (depth : Nat) (s : Session) : List String → List Call
  | [] => []
  | text :: texts =>
    s.textCalls depth text ++
      match s.eval depth text with
      | some (_, s') => calls depth s' texts
      | none => []

example : ((start ⟨false, .construct⟩).calls 2
    ["(define f (lambda (x) ((lambda (y) y) x)))", "(f (f 'a))", "(f)"]).map Call.params =
      [["x"], ["y__1"], ["x"], ["y__2"], ["x"]] := by
  decide +kernel

end Session

/-! ## No call is left out

An evaluator that stops short of every call that does not satisfy a predicate goes on as before
where all listed calls satisfy it.  So whatever holds of the listed calls holds of all calls. -/

namespace Eval

variable {α β : Type} {P : Call → Prop}

/-- The evaluation that goes on only from stores with a property. -/
def provided (p : Store → Prop) [DecidablePred p] (x : Eval α) : Eval α :=
  fun s => if p s then x s else none

/-- A provision that holds in a store does not stop an evaluation from there. -/
theorem provided_apply {p : Store → Prop} [DecidablePred p] {x : Eval α} {s : Store} (h : p s) :
    x.provided p s = x s :=
  if_pos h

/-- An evaluation is another one wherever the calls satisfy a predicate. -/
def AgreesWhere (P : Call → Prop) (calls : Calls) (x y : Eval α) : Prop :=
  ∀ s, (∀ c ∈ calls s, P c) → x s = y s

theorem AgreesWhere.refl (calls : Calls) (x : Eval α) : AgreesWhere P calls x x :=
  fun _ _ => rfl

/-- Two evaluations that agree where their calls satisfy a predicate may be followed by two that
do. -/
theorem AgreesWhere.bind {calls : Calls} {rest : α → Calls} {x y : Eval α} {f g : α → Eval β}
    (hx : AgreesWhere P calls x y) (hf : ∀ a, AgreesWhere P (rest a) (f a) (g a)) :
    AgreesWhere P (calls.andThen y rest) (x >>= f) (y >>= g) := by
  intro s h
  obtain ⟨hcalls, hrest⟩ := List.forall_mem_append.1 h
  rw [bind_apply, bind_apply, hx s hcalls]
  cases hy : y s with
  | none => rfl
  | some o =>
    obtain ⟨_ | a, t⟩ := o
    · rfl
    · rw [hy] at hrest
      exact hf a t hrest

/-- The same evaluation may follow on both sides, and then its calls need not be listed. -/
theorem AgreesWhere.bind_left {calls : Calls} {x y : Eval α} (hx : AgreesWhere P calls x y)
    (f : α → Eval β) : AgreesWhere P calls (x >>= f) (y >>= f) := by
  rw [← calls.andThen_none y]
  exact hx.bind fun _ => .refl _ _

end Eval

open Eval (AgreesWhere)

namespace Expr

variable {P : Call → Prop} {A B : Applier} {C : Value → List Value → Calls}

mutual

/-- **Appliers that agree give evaluations that agree**, where all calls that the evaluation lists
satisfy the predicate. -/
theorem evalWith_agrees (hA : ∀ proc args, AgreesWhere P (C proc args) (A proc args) (B proc args))
    (env : Environment) :
    ∀ e : Expr, AgreesWhere P (e.callsWith B C env) (e.evalWith A env) (e.evalWith B env)
  | .number _ | .boolean _ | .string _ | .prim _ | .quote _ | .var _ | .lambda _ _ | .define _ _
  | .foreign _ => .refl _ _
  | .cond t c a => by
    refine (evalWith_agrees hA env t).bind fun v => ?_
    split
    · exact evalWith_agrees hA env a
    · exact evalWith_agrees hA env c
  | .app f es => (evalWith_agrees hA env f).bind fun proc =>
    (evalEachWith_agrees hA env es).bind fun args => hA proc args
  | .dict es => (evalEntriesWith_agrees hA env es).bind_left _

theorem evalEachWith_agrees
    (hA : ∀ proc args, AgreesWhere P (C proc args) (A proc args) (B proc args))
    (env : Environment) : ∀ es : List Expr,
      AgreesWhere P (callsEachWith B C env es) (evalEachWith A env es) (evalEachWith B env es)
  | [] => .refl _ _
  | e :: es => (evalWith_agrees hA env e).bind fun _ => (evalEachWith_agrees hA env es).bind_left _

theorem evalEntriesWith_agrees
    (hA : ∀ proc args, AgreesWhere P (C proc args) (A proc args) (B proc args))
    (env : Environment) : ∀ es : List (String × Expr), AgreesWhere P (callsEntriesWith B C env es)
      (evalEntriesWith A env es) (evalEntriesWith B env es)
  | [] => .refl _ _
  | (_, e) :: es => (evalWith_agrees hA env e).bind fun _ =>
    (AgreesWhere.refl .none _).bind fun _ => (evalEntriesWith_agrees hA env es).bind_left _

end

/-- The calls of a sequence that begins with no definition are those of its first element and, if
that has a value, those of the rest. -/
theorem callsSeqWith_cons (A : Applier) (C : Value → List Value → Calls) (env : Environment)
    {e : Expr} (he : ∀ x d, e ≠ .define x d) (es : List Expr) :
    callsSeqWith A C env (e :: es) =
      (e.callsWith A C env).andThen (e.evalWith A env) fun _ => callsSeqWith A C env es := by
  cases e with
  | define x d => exact absurd rfl (he x d)
  | _ => rfl

theorem callsSeqWith_single (A : Applier) (C : Value → List Value → Calls) (env : Environment)
    {e : Expr} (he : ∀ x d, e ≠ .define x d) :
    callsSeqWith A C env [e] = e.callsWith A C env := by
  rw [callsSeqWith_cons A C env he]
  exact Calls.andThen_none _ _

theorem callsSeqWith_define_last (A : Applier) (C : Value → List Value → Calls)
    (env : Environment) (x : String) (e : Expr) :
    callsSeqWith A C env [.define x e] = e.callsWith A C env :=
  Calls.andThen_none _ _

/-- Sequences are evaluated alike where all their calls satisfy the predicate. -/
theorem evalSeqWith_agrees
    (hA : ∀ proc args, AgreesWhere P (C proc args) (A proc args) (B proc args))
    (env : Environment) (es : List Expr) :
    AgreesWhere P (callsSeqWith B C env es) (evalSeqWith A env es) (evalSeqWith B env es) := by
  fun_induction evalSeqWith B env es with
  | case1 => exact .refl _ _
  | case2 env x e =>
    rw [callsSeqWith_define_last]
    exact (evalWith_agrees hA env e).bind_left _
  | case3 env e he =>
    simp only [callsSeqWith_single B C env he, evalSeqWith]
    exact evalWith_agrees hA env e
  | case4 env x e es hes ih =>
    simp only [callsSeqWith, evalSeqWith]
    exact (evalWith_agrees hA env e).bind ih
  | case5 env e es hes _ he ih =>
    simp only [callsSeqWith_cons B C env he, evalSeqWith]
    exact (evalWith_agrees hA env e).bind fun _ => ih

end Expr

namespace Value

/-- Applies a value, but performs no call that does not satisfy a predicate. -/
def applyWhere (P : Call → Prop) [DecidablePred P] (depth : Nat) (proc : Value)
    (args : List Value) : Eval Value :=
  match proc with
  | .closure _ params body =>
    match depth with
    | 0 => Eval.exhausted
    | depth + 1 =>
      Eval.provided (fun s => P ⟨s.names, params, body, args⟩) <|
        if args.length = params.length then do
          let renamed ← Eval.renameBody body
          let literals ← Eval.ofCondition (literals? args)
          Expr.evalSeqWith (applyWhere P depth) .empty
            (Expr.substSeq (.ofLists params literals) renamed)
        else Eval.raise (.closureArity params args.length)
  | proc => proc.applyAt depth args

/-- **To perform only some calls changes nothing** where all calls that are listed are among
them. -/
theorem applyWhere_agrees (P : Call → Prop) [DecidablePred P] (depth : Nat) (proc : Value)
    (args : List Value) : AgreesWhere P (proc.callsAt depth args) (proc.applyWhere P depth args)
      (proc.applyAt depth args) := by
  induction depth generalizing proc args with
  | zero => cases proc <;> exact .refl _ _
  | succ depth ih =>
    cases proc with
    | closure i ps b =>
      intro s h
      -- the call itself comes first in the list, then what its body performs
      obtain ⟨hcall, hrest⟩ := List.forall_mem_cons.1 h
      rw [applyWhere, applyAt, Eval.provided_apply hcall]
      by_cases hlen : args.length = ps.length
      · simp only [if_pos hlen] at hrest ⊢
        exact (AgreesWhere.refl .none _).bind (fun renamed => (AgreesWhere.refl .none _).bind
          fun ls => Expr.evalSeqWith_agrees ih .empty _) s hrest
      · rw [if_neg hlen, if_neg hlen]
    | _ => exact .refl _ _

end Value

/-- **No call is left out**: to perform only calls that satisfy a predicate changes nothing where
all listed calls satisfy it. -/
theorem Expr.evalWith_applyWhere (P : Call → Prop) [DecidablePred P] (depth : Nat)
    (env : Environment) (e : Expr) (s : Store) (h : ∀ c ∈ e.callsAt depth env s, P c) :
    e.evalWith (Value.applyWhere P depth) env s = e.evalAt depth env s :=
  e.evalWith_agrees (Value.applyWhere_agrees P depth) env s h

end Lambdict
