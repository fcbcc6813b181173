import Lambdict.Proofs.Calls.Basic
import Lambdict.Proofs.Simulation.Eval

/-!
# Names are drawn by calls alone

Between two moments of a session the supply of names is drawn on by the listed calls, one after
another, and by nothing else (`Session.draws_calls`).  In particular primitives draw nothing.  So
the names that the calls draw are all that are drawn, and they are all different
(`NameSupply.Draws.drawnAll`).

The store of a session is not held to the digit limit, so that every listed call does draw.
-/

namespace Lambdict

namespace NameSupply

/-- **Calls that draw on a supply**, one after another, between two moments of it.  In between them
the supply may have names reserved, but gives none. -/
def Draws : NameSupply → List Call → NameSupply → Prop
  | s, [], t => s.Reserves t
  | s, c :: cs, t => s.Reserves c.names ∧ c.after.Draws cs t

variable {s t u : NameSupply} {cs ds : List Call}

/-- Calls that draw from a supply draw from one that reserves as much. -/
theorem Draws.of_reserves (h : s.Reserves t) (hd : t.Draws ds u) : s.Draws ds u := by
  cases ds with
  | nil => exact h.trans hd
  | cons d ds => exact ⟨h.trans hd.1, hd.2⟩

/-- Calls that draw one after another draw together. -/
theorem Draws.append (hc : s.Draws cs t) (hd : t.Draws ds u) : s.Draws (cs ++ ds) u := by
  induction cs generalizing s with
  | nil => exact Draws.of_reserves hc hd
  | cons c cs ih => exact ⟨hc.1, ih hc.2⟩

/-- Calls only raise the counter of their supply. -/
theorem Draws.le (h : s.Draws cs t) : s.Le t := by
  induction cs generalizing s with
  | nil => exact h.le
  | cons c cs ih => exact (h.1.le.trans c.le_after).trans (ih h.2)

/-- **The names that calls draw one after another are new, and all different.** -/
theorem Draws.drawnAll (h : s.Draws cs t) : s.DrawnAll t (cs.flatMap Call.drawn) := by
  induction cs generalizing s with
  | nil => exact .nil s t
  | cons c cs ih =>
    -- the call draws before all that come after it
    have hfirst := c.after_drawn.mono h.1.le (.refl _)
    exact hfirst.append (h.1.le.trans c.le_after) (Draws.le h.2) (ih h.2)

end NameSupply

namespace Eval

variable {α β : Type}

/-- The calls that are listed for an evaluation are those that draw on its supply. -/
def DrawsBy (x : Eval α) (calls : Calls) : Prop :=
  ∀ s, s.limited = false → ∃ n, s.names.Draws (calls s) n ∧
    ∀ r t, x s = some (r, t) → t.names = n ∧ t.limited = false

namespace DrawsBy

theorem pure (a : α) : DrawsBy (pure a) .none :=
  fun s hs => ⟨s.names, .refl _, by rintro _ _ ⟨⟩; exact ⟨rfl, hs⟩⟩

theorem fail (e : Error) : DrawsBy (fail e : Eval α) .none :=
  fun s hs => ⟨s.names, .refl _, by rintro _ _ ⟨⟩; exact ⟨rfl, hs⟩⟩

theorem raise (c : Condition) : DrawsBy (raise c : Eval α) .none :=
  fail _

theorem ofExcept (r : Except Error α) : DrawsBy (ofExcept r) .none := by
  cases r with
  | ok a => exact pure a
  | error e => exact fail e

theorem exhausted : DrawsBy (exhausted : Eval α) .none :=
  fun s _ => ⟨s.names, .refl _, by rintro _ _ ⟨⟩⟩

theorem newIdentity : DrawsBy newIdentity .none :=
  fun s hs => ⟨s.names, .refl _, by rintro _ _ ⟨⟩; exact ⟨rfl, hs⟩⟩

/-- The calls of a sequence are those of its parts. -/
theorem bind {x : Eval α} {f : α → Eval β} {calls : Calls} {rest : α → Calls}
    (hx : DrawsBy x calls) (hf : ∀ a, DrawsBy (f a) (rest a)) :
    DrawsBy (x >>= f) (calls.andThen x rest) := by
  intro s hs
  obtain ⟨n, hn, hend⟩ := hx s hs
  simp only [Calls.andThen, bind_apply]
  cases hxs : x s with
  | none =>
    refine ⟨n, by simpa using hn, ?_⟩
    rintro _ _ ⟨⟩
  | some o =>
    obtain ⟨_ | a, t⟩ := o
    · refine ⟨n, by simpa using hn, ?_⟩
      rintro _ _ ⟨⟩
      exact hend _ _ hxs
    · -- what goes on begins with the supply that is left
      obtain ⟨rfl, ht⟩ := hend _ _ hxs
      obtain ⟨m, hm, hend'⟩ := hf a t ht
      exact ⟨m, hn.append hm, hend'⟩

/-- What goes on without a call adds none. -/
theorem bind_none {x : Eval α} {f : α → Eval β} {calls : Calls} (hx : DrawsBy x calls)
    (hf : ∀ a, DrawsBy (f a) .none) : DrawsBy (x >>= f) calls := by
  rw [← calls.andThen_none x]
  exact hx.bind hf

end DrawsBy

end Eval

open Eval (DrawsBy)

/-! ## Primitives draw nothing -/

namespace Primitive

/-- A primitive that refuses its arguments performs no call. -/
theorem mismatch_draws {α : Type} (op : Primitive) (args : List Value) (complaint : Complaint) :
    DrawsBy (op.mismatch args complaint : Eval α) .none :=
  (DrawsBy.ofExcept _).bind_none fun _ => .raise _

theorem arithmetic_draws (r : Except ArithmeticFault Number) : DrawsBy (arithmetic r) .none :=
  (DrawsBy.ofExcept _).bind_none fun _ => .pure _

/-- A primitive of one argument performs no call if what it does with it performs none. -/
theorem unary_draws (op : Primitive) (args : List Value) {f : Value → Eval Value}
    (hf : ∀ a, DrawsBy (f a) .none) : DrawsBy (op.unary args f) .none := by
  unfold unary
  split
  · exact hf _
  · exact .raise _

/-- A primitive of two arguments performs no call if what it does with them performs none. -/
theorem binary_draws (op : Primitive) (args : List Value) {f : Value → Value → Eval Value}
    (hf : ∀ a b, DrawsBy (f a b) .none) : DrawsBy (op.binary args f) .none := by
  unfold binary
  split
  · exact hf _ _
  · exact .raise _

theorem onNumbers_draws (op : Primitive) (args : List Value)
    (f : List Number → Except ArithmeticFault Number) : DrawsBy (op.onNumbers args f) .none := by
  unfold onNumbers
  split
  · exact arithmetic_draws _
  · exact mismatch_draws op args _

theorem onTwoNumbers_draws (op : Primitive) (args : List Value) {f : Number → Number → Eval Value}
    (hf : ∀ m n, DrawsBy (f m n) .none) : DrawsBy (op.onTwoNumbers args f) .none := by
  refine op.binary_draws args fun a b => ?_
  split
  · exact hf _ _
  · exact mismatch_draws op args _

theorem comparison_draws (op : Primitive) (args : List Value) (f : Number → Number → Bool)
    (g : String → String → Bool) : DrawsBy (op.comparison args f g) .none := by
  refine op.binary_draws args fun a b => ?_
  split
  · exact .pure _
  · exact .pure _
  · exact mismatch_draws op args _

theorem onBooleans_draws (op : Primitive) (args : List Value) (f : List Bool → Bool) :
    DrawsBy (op.onBooleans args f) .none := by
  unfold onBooleans
  split
  · exact .pure _
  · exact mismatch_draws op args _

theorem newPair_draws (h t : Value) : DrawsBy (newPair h t) .none :=
  DrawsBy.newIdentity.bind_none fun _ => .pure _

/-- No call is performed where a list is made. -/
theorem newList_draws (vs : List Value) : DrawsBy (newList vs) .none := by
  induction vs with
  | nil => exact .pure _
  | cons v vs ih => exact ih.bind_none fun _ => newPair_draws v _

theorem newDict_draws (es : List (String × Value)) : DrawsBy (newDict es) .none :=
  DrawsBy.newIdentity.bind_none fun _ => .pure _

theorem lookupKey_draws (es : List (String × Value)) (key : String) :
    DrawsBy (lookupKey es key) .none := by
  unfold lookupKey
  split
  · exact .pure _
  · exact .raise _

/-- **Primitives perform no calls and draw nothing.** -/
theorem apply_draws (op : Primitive) (args : List Value) : DrawsBy (op.apply args) .none := by
  cases op with
  | add | mul => exact onNumbers_draws _ _ _
  | sub => exact onTwoNumbers_draws _ _ fun _ _ => arithmetic_draws _
  | div =>
    refine onTwoNumbers_draws _ _ fun m n => ?_
    split
    · exact mismatch_draws _ _ _
    · exact arithmetic_draws _
  | gt | lt => exact comparison_draws _ _ _ _
  | numEq | eq => exact binary_draws _ _ fun _ _ => .pure _
  | and | or => exact onBooleans_draws _ _ _
  | not | isPair | isNumber | isBoolean | isSymbol | isString | isDict =>
    exact unary_draws _ _ fun _ => .pure _
  | cons => exact binary_draws _ _ newPair_draws
  | list => exact newList_draws args
  | stringEq =>
    refine binary_draws _ _ fun a b => ?_
    split
    · exact .pure _
    · exact mismatch_draws _ _ _
  | car | cdr =>
    refine unary_draws _ _ fun a => ?_
    split
    · exact .pure _
    · exact mismatch_draws _ _ _
  | get =>
    refine binary_draws _ _ fun d k => ?_
    split
    · exact lookupKey_draws _ _
    · exact mismatch_draws _ _ _
  | dict =>
    simp only [apply]
    split
    · exact newDict_draws _
    · exact mismatch_draws _ _ _
  | bind =>
    simp only [apply]
    split
    · exact newDict_draws _
    · exact mismatch_draws _ _ _
    · exact .raise _

end Primitive

/-! ## Evaluation -/

namespace Expr

variable {A : Applier} {C : Value → List Value → Calls}

mutual

/-- **Only the calls that are listed for an expression draw on the supply**, if that is so of its
applier. -/
theorem evalWith_draws (hA : ∀ proc args, DrawsBy (A proc args) (C proc args)) (env : Environment) :
    ∀ e : Expr, DrawsBy (e.evalWith A env) (e.callsWith A C env)
  | .number _ | .boolean _ | .string _ | .prim _ | .quote _ => .pure _
  | .var _ => .ofExcept _
  | .define _ _ | .foreign _ => .raise _
  | .lambda _ _ => DrawsBy.newIdentity.bind_none fun _ => .pure _
  | .cond t c a => by
    refine (evalWith_draws hA env t).bind fun v => ?_
    split
    · exact evalWith_draws hA env a
    · exact evalWith_draws hA env c
  | .app f es => (evalWith_draws hA env f).bind fun proc =>
    (evalEachWith_draws hA env es).bind fun args => hA proc args
  | .dict es => (evalEntriesWith_draws hA env es).bind_none Primitive.newDict_draws

theorem evalEachWith_draws (hA : ∀ proc args, DrawsBy (A proc args) (C proc args))
    (env : Environment) :
    ∀ es : List Expr, DrawsBy (evalEachWith A env es) (callsEachWith A C env es)
  | [] => .pure _
  | e :: es => (evalWith_draws hA env e).bind fun _ =>
    (evalEachWith_draws hA env es).bind_none fun _ => .pure _

theorem evalEntriesWith_draws (hA : ∀ proc args, DrawsBy (A proc args) (C proc args))
    (env : Environment) :
    ∀ es : List (String × Expr), DrawsBy (evalEntriesWith A env es) (callsEntriesWith A C env es)
  | [] => .pure _
  | (_, e) :: es => (evalWith_draws hA env e).bind fun _ => DrawsBy.newIdentity.bind fun _ =>
    (evalEntriesWith_draws hA env es).bind_none fun _ => .pure _

end

/-- Only the calls that are listed for a sequence draw on the supply. -/
theorem evalSeqWith_draws (hA : ∀ proc args, DrawsBy (A proc args) (C proc args))
    (env : Environment) (es : List Expr) :
    DrawsBy (evalSeqWith A env es) (callsSeqWith A C env es) := by
  fun_induction evalSeqWith A env es with
  | case1 => exact .raise _
  | case2 env x e =>
    rw [callsSeqWith_define_last]
    exact (evalWith_draws hA env e).bind_none fun _ => .raise _
  | case3 env e he =>
    rw [callsSeqWith_single A C env he]
    exact evalWith_draws hA env e
  | case4 env x e es hes ih => exact (evalWith_draws hA env e).bind ih
  | case5 env e es hes _ he ih =>
    rw [callsSeqWith_cons A C env he]
    exact (evalWith_draws hA env e).bind fun _ => ih

end Expr

namespace Value

/-- The call of a closure, and what its body performs. -/
theorem callsAt_closure_succ (depth : Nat) (i : Identity) {ps : List String} {b : List Expr}
    {args : List Value} (h : args.length = ps.length) {s : Store} (hs : s.Admits b) :
    (closure i ps b).callsAt (depth + 1) args s = ⟨s.names, ps, b, args⟩ ::
      match (literals? args).mapError Error.condition with
      | .error _ => []
      | .ok ls => Expr.callsSeqWith (applyAt depth) (callsAt depth) .empty
          (Expr.substSeq (.ofLists ps ls) (Expr.renameAll b s.names).1) (s.renaming b) := by
  simp only [callsAt, if_pos h, Calls.andThen, Calls.none, List.nil_append,
    Eval.renameBody_of_admits hs, Eval.ofCondition]
  cases (literals? args).mapError Error.condition <;> rfl

/-- A call with a wrong number of arguments is listed, and nothing after it. -/
theorem callsAt_closure_arity (depth : Nat) (i : Identity) {ps : List String} {b : List Expr}
    {args : List Value} (h : args.length ≠ ps.length) (s : Store) :
    (closure i ps b).callsAt (depth + 1) args s = [⟨s.names, ps, b, args⟩] := by
  simp only [callsAt, if_neg h]

/-- A call of a closure draws the names of its body, and then what the calls in the body draw. -/
theorem closure_draws {depth : Nat}
    (ih : ∀ proc args, DrawsBy (applyAt depth proc args) (callsAt depth proc args)) (i : Identity)
    (ps : List String) (b : List Expr) (args : List Value) :
    DrawsBy ((closure i ps b).applyAt (depth + 1) args)
      ((closure i ps b).callsAt (depth + 1) args) := by
  intro s hs
  by_cases h : args.length = ps.length
  · have hafter : (Call.mk s.names ps b args).after = (s.renaming b).names := if_pos h
    have hb := Store.admits_of_unlimited hs b
    rw [callsAt_closure_succ depth i h hb, Simulation.applyAt_closure_succ depth i h hb]
    simp only [NameSupply.Draws, hafter]
    cases (literals? args).mapError Error.condition with
    | error e =>
      refine ⟨_, ⟨.refl _, .refl _⟩, ?_⟩
      rintro _ _ ⟨⟩
      exact ⟨rfl, hs⟩
    | ok ls =>
      obtain ⟨n, hn, hend⟩ := Expr.evalSeqWith_draws ih .empty _ (s.renaming b) hs
      exact ⟨n, ⟨.refl _, hn⟩, hend⟩
  · have hafter : (Call.mk s.names ps b args).after = s.names := if_neg h
    rw [callsAt_closure_arity depth i h, Simulation.applyAt_closure_arity depth i h]
    simp only [NameSupply.Draws, hafter]
    refine ⟨s.names, ⟨.refl _, .refl _⟩, ?_⟩
    rintro _ _ ⟨⟩
    exact ⟨rfl, hs⟩

/-- Where no closure is called, no call is listed. -/
theorem callsAt_of_not_closure {proc : Value} (h : ∀ i ps b, proc ≠ .closure i ps b) (depth : Nat)
    (args : List Value) : proc.callsAt depth args = .none := by
  cases proc with
  | closure i ps b => exact absurd rfl (h i ps b)
  | _ =>
    unfold callsAt
    rfl

/-- Where no closure is called, nothing is drawn. -/
theorem applyAt_draws_of_not_closure {proc : Value} (h : ∀ i ps b, proc ≠ .closure i ps b)
    (depth : Nat) (args : List Value) : DrawsBy (proc.applyAt depth args) .none := by
  cases proc with
  | closure i ps b => exact absurd rfl (h i ps b)
  | prim p =>
    rw [applyAt_prim]
    exact p.apply_draws args
  | dict i es =>
    unfold applyAt
    split
    · exact Primitive.lookupKey_draws _ _
    · exact .raise _
  | _ =>
    unfold applyAt
    exact (DrawsBy.ofExcept _).bind_none fun _ => .raise _

/-- **Applying a value draws names by the listed calls alone.** -/
theorem applyAt_draws (depth : Nat) (proc : Value) (args : List Value) :
    DrawsBy (proc.applyAt depth args) (proc.callsAt depth args) := by
  induction depth generalizing proc args with
  | zero =>
    by_cases h : ∃ i ps b, proc = .closure i ps b
    · obtain ⟨i, ps, b, rfl⟩ := h
      exact .exhausted
    · rw [callsAt_of_not_closure fun i ps b hp => h ⟨i, ps, b, hp⟩]
      exact applyAt_draws_of_not_closure (fun i ps b hp => h ⟨i, ps, b, hp⟩) 0 args
  | succ depth ih =>
    by_cases h : ∃ i ps b, proc = .closure i ps b
    · obtain ⟨i, ps, b, rfl⟩ := h
      exact closure_draws ih i ps b args
    · rw [callsAt_of_not_closure fun i ps b hp => h ⟨i, ps, b, hp⟩]
      exact applyAt_draws_of_not_closure (fun i ps b hp => h ⟨i, ps, b, hp⟩) (depth + 1) args

end Value

/-- Only the calls that are listed for an expression draw on the supply. -/
theorem Expr.evalAt_draws (depth : Nat) (env : Environment) (e : Expr) :
    DrawsBy (e.evalAt depth env) (e.callsAt depth env) :=
  e.evalWith_draws (Value.applyAt_draws depth) env

/-! ## Sessions -/

/-- The expression that a form evaluates. -/
def Expr.formBody : Expr → Expr
  | .define _ e => e
  | e => e

/-- The environment after a form that came to a value. -/
def Expr.formEnv (env : Environment) (v : Value) : Expr → Environment
  | .define x _ => env.extend x v
  | _ => env

/-- The value so far, after a form that came to a value. -/
def Expr.formValue (v : Value) : Expr → Value
  | .define _ _ => .nothing
  | _ => v

namespace Session

/-- The calls of forms are those of the first and, if it has a value, those of the rest. -/
theorem formCalls_cons (depth : Nat) (s : Session) (e : Expr) (es : List Expr) :
    s.formCalls depth (e :: es) = e.formBody.callsAt depth s.env s.store ++
      match e.formBody.evalAt depth s.env s.store with
      | some (.ok v, store) => formCalls depth { s with store, env := e.formEnv s.env v } es
      | _ => [] := by
  cases e <;> rfl

/-- Forms are evaluated one after another, each with the definitions before it. -/
theorem evalForms_cons (depth : Nat) (s : Session) (last : Value) (e : Expr) (es : List Expr) :
    s.evalForms depth last (e :: es) =
      match e.formBody.evalAt depth s.env s.store with
      | none => none
      | some (.error err, store) => some (.error err, { s with store })
      | some (.ok v, store) =>
        evalForms depth { s with store, env := e.formEnv s.env v } (e.formValue v) es := by
  cases e <;> rfl

/-- Only the calls that are listed for the forms of a text draw on the session's supply. -/
theorem evalForms_draws (depth : Nat) {s : Session} (hs : s.store.limited = false) (last : Value)
    (es : List Expr) :
    ∃ n, s.store.names.Draws (s.formCalls depth es) n ∧
      ∀ r s', s.evalForms depth last es = some (r, s') →
        s'.store.names = n ∧ s'.store.limited = false := by
  induction es generalizing s last with
  | nil =>
    refine ⟨s.store.names, .refl _, ?_⟩
    rintro _ _ ⟨⟩
    exact ⟨rfl, hs⟩
  | cons e es ih =>
    obtain ⟨n, hn, hend⟩ := e.formBody.evalAt_draws depth s.env s.store hs
    rw [formCalls_cons, evalForms_cons]
    cases he : e.formBody.evalAt depth s.env s.store with
    | none =>
      refine ⟨n, by simpa using hn, ?_⟩
      rintro _ _ ⟨⟩
    | some o =>
      obtain ⟨_ | v, t⟩ := o
      · refine ⟨n, by simpa using hn, ?_⟩
        rintro _ _ ⟨⟩
        exact hend _ _ he
      · obtain ⟨rfl, ht⟩ := hend _ _ he
        obtain ⟨m, hm, hend'⟩ :=
          ih (s := { s with store := t, env := e.formEnv s.env v }) ht (e.formValue v)
        exact ⟨m, hn.append hm, hend'⟩

/-- A text is not taken up, and changes nothing, or its forms are evaluated with its names
reserved. -/
theorem text_cases (depth : Nat) (s : Session) (text : String) :
    (s.textCalls depth text = [] ∧ ∃ e, s.eval depth text = some (.error e, s)) ∨
      ∃ program names, s.prepare text = .ok program ∧ collectNames program = .ok names ∧
        s.textCalls depth text =
          (s.adopt names program).2.formCalls depth (s.adopt names program).1 ∧
        s.eval depth text =
          (s.adopt names program).2.evalForms depth .nothing (s.adopt names program).1 := by
  unfold textCalls eval
  cases hp : s.prepare text with
  | error e => exact .inl ⟨rfl, e, rfl⟩
  | ok program =>
    cases hn : collectNames program with
    | error fault => exact .inl ⟨by simp only [hn], fault.toError, by simp only [hn]⟩
    | ok names => exact .inr ⟨program, names, rfl, hn, by simp only [hn], by simp only [hn]⟩

/-- **Only the calls that are listed for a text draw on the session's supply.** -/
theorem eval_draws (depth : Nat) {s : Session} (hs : s.store.limited = false) (text : String) :
    ∃ n, s.store.names.Draws (s.textCalls depth text) n ∧
      ∀ r s', s.eval depth text = some (r, s') →
        s'.store.names = n ∧ s'.store.limited = false := by
  rcases s.text_cases depth text with ⟨hcalls, e, heval⟩ | ⟨program, names, -, -, hcalls, heval⟩
  · rw [hcalls, heval]
    refine ⟨s.store.names, .refl _, ?_⟩
    rintro _ _ ⟨⟩
    exact ⟨rfl, hs⟩
  · rw [hcalls, heval]
    obtain ⟨n, hn, hend⟩ := evalForms_draws depth (s := (s.adopt names program).2) hs .nothing
      (s.adopt names program).1
    exact ⟨n, hn.of_reserves (s.store.names.reserves_reserve names), hend⟩

/-- **In a session names are drawn by the listed calls alone.** -/
theorem draws_calls (depth : Nat) {s : Session} (hs : s.store.limited = false)
    (texts : List String) :
    ∃ n, s.store.names.Draws (s.calls depth texts) n ∧
      ∀ s', s.evalTexts depth texts = some s' → s'.store.names = n := by
  induction texts generalizing s with
  | nil =>
    refine ⟨s.store.names, .refl _, ?_⟩
    rintro _ ⟨⟩
    rfl
  | cons text texts ih =>
    obtain ⟨n, hn, hend⟩ := s.eval_draws depth hs text
    rw [calls, evalTexts]
    cases ht : s.eval depth text with
    | none =>
      refine ⟨n, by simpa using hn, ?_⟩
      rintro _ ⟨⟩
    | some o =>
      obtain ⟨hnames, hlimited⟩ := hend o.1 o.2 ht
      obtain ⟨m, hm, hend'⟩ := ih hlimited
      rw [hnames] at hm
      exact ⟨m, hn.append hm, hend'⟩

end Session

end Lambdict
