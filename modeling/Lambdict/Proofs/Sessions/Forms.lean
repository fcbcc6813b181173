import Lambdict.Proofs.Calls.Hygiene
import Lambdict.Proofs.Simulation.Invariant

/-!
# Forms one after another

A session and a program as a whole both go through forms one after another, each form where the
forms before it have left off.  What can happen on the way is said here once.  Either every form
comes to a value (`Expr.GivesValues`), or one stops, with an error or within no depth, after forms
that all came to values (`Expr.gives_or_stops`).

The two evaluators are then read off.  A session keeps what was defined up to there
(`Session.evalForms_of_gives`, `Session.evalForms_of_stops`), and this is all that its results can
be (`Session.evalForms_eq_ok_iff`, `Session.evalForms_eq_error_iff`).  A sequence keeps nothing; and
one that is empty or ends in a definition fails by itself after all its forms came to values
(`Expr.evalSeqAt_of_gives`, `Expr.evalSeqAt_of_stops`).
-/

namespace Lambdict

namespace Expr

variable {depth : Nat} {env : Environment} {s t u : Store} {e form : Expr}
  {es done rest : List Expr} {v : Value} {vs : List Value} {stop : Option (Error × Store)}

/-- **Forms that come to values**, from an environment and a store on: their values, and the store
at the end. -/
inductive GivesValues (depth : Nat) :
    Environment → Store → List Expr → List Value → Store → Prop
  | nil (env : Environment) (s : Store) : GivesValues depth env s [] [] s
  | cons {env : Environment} {s t u : Store} {e : Expr} {v : Value} {es : List Expr}
      {vs : List Value} (he : e.formBody.evalAt depth env s = some (.ok v, t))
      (hes : GivesValues depth (e.formEnv env v) t es vs u) :
      GivesValues depth env s (e :: es) (v :: vs) u

/-- The definitions among forms, each with the value that it came to. -/
def definitions : List Expr → List Value → List (String × Value)
  | .define x _ :: es, v :: vs => (x, v) :: definitions es vs
  | _ :: es, _ :: vs => definitions es vs
  | _, _ => []

/-- The value that a session gives for forms: that of the last form, or nothing for a definition. -/
def lastValue (last : Value) : List Expr → List Value → Value
  | e :: es, v :: vs => lastValue (e.formValue v) es vs
  | _, _ => last

/-- An evaluation that gives no value: it ends with an error, or does not end within its depth. -/
def stopped (stop : Option (Error × Store)) : Option (Except Error Value × Store) :=
  stop.map fun p => (.error p.1, p.2)

theorem extendAll_definitions_cons (env : Environment) (e : Expr) (es : List Expr) (v : Value)
    (vs : List Value) : env.extendAll (definitions (e :: es) (v :: vs)) =
      (e.formEnv env v).extendAll (definitions es vs) := by
  cases e <;> rfl

theorem lastValue_cons (last : Value) (e : Expr) (es : List Expr) (v : Value) (vs : List Value) :
    lastValue last (e :: es) (v :: vs) = lastValue (e.formValue v) es vs := rfl

/-- **What forms can come to**: every form gives a value, or one form stops after others that
did. -/
theorem gives_or_stops (depth : Nat) (env : Environment) (s : Store) (es : List Expr) :
    (∃ vs t, GivesValues depth env s es vs t) ∨
      ∃ done form rest vs t stop, es = done ++ form :: rest ∧ GivesValues depth env s done vs t ∧
        form.formBody.evalAt depth (env.extendAll (definitions done vs)) t = stopped stop := by
  induction es generalizing env s with
  | nil => exact .inl ⟨[], s, .nil env s⟩
  | cons e es ih =>
    cases he : e.formBody.evalAt depth env s with
    | none => exact .inr ⟨[], e, es, [], s, none, rfl, .nil env s, he⟩
    | some o =>
      obtain ⟨err | v, t⟩ := o
      · exact .inr ⟨[], e, es, [], s, some (err, t), rfl, .nil env s, he⟩
      · rcases ih (e.formEnv env v) t with
          ⟨vs, u, hes⟩ | ⟨done, form, rest, vs, u, stop, rfl, hdone, hstop⟩
        · exact .inl ⟨v :: vs, u, .cons he hes⟩
        · refine .inr ⟨e :: done, form, rest, v :: vs, u, stop, rfl, .cons he hdone, ?_⟩
          rwa [extendAll_definitions_cons]

theorem GivesValues.names (h : GivesValues depth env s es vs t) :
    t.names.reserved = s.names.reserved ∧ s.names.counter ≤ t.names.counter := by
  induction h with
  | nil => exact ⟨rfl, Int.le_refl _⟩
  | cons he _ ih =>
    obtain ⟨hreserved, hcounter⟩ := evalAt_names he
    exact ⟨ih.1.trans hreserved, Int.le_trans hcounter ih.2⟩

/-! ## Sequences -/

/-- The name that a form defines. -/
def definedName? : Expr → Option String
  | .define x _ => some x
  | _ => none

/-- What a sequence has against itself: that it is empty, or that it ends in a definition. -/
def sequenceFault (es : List Expr) : Option Condition :=
  match es.getLast? with
  | none => some .emptySequence
  | some e => e.definedName?.map .sequenceEndsInDefinition

theorem sequenceFault_cons (e : Expr) (hes : es ≠ []) :
    sequenceFault (e :: es) = sequenceFault es := by
  rw [sequenceFault, List.getLast?_cons_of_ne_nil hes, sequenceFault]

/-- What a sequence has against itself is a matter of the names that its forms define. -/
theorem sequenceFault_congr {es' : List Expr}
    (h : es.map definedName? = es'.map definedName?) : sequenceFault es = sequenceFault es' := by
  have hlast := congrArg List.getLast? h
  rw [List.getLast?_map, List.getLast?_map] at hlast
  unfold sequenceFault
  cases hes : es.getLast? <;> cases hes' : es'.getLast? <;> simp_all

/-- A form that is no definition is evaluated as it is, and binds nothing. -/
theorem form_of_not_definition (he : e.isDefinition = false) :
    e.formBody = e ∧ (∀ env v, e.formEnv env v = env) ∧ ∀ v, e.formValue v = v := by
  cases e with
  | define => cases he
  | _ => exact ⟨rfl, fun _ _ => rfl, fun _ => rfl⟩

/-- The first of several forms, where the sequence goes on. -/
theorem evalSeqAt_cons (depth : Nat) (env : Environment) (e : Expr) (hes : es ≠ []) (s : Store) :
    evalSeqAt depth env (e :: es) s =
      match e.formBody.evalAt depth env s with
      | none => none
      | some (.error err, t) => some (.error err, t)
      | some (.ok v, t) => evalSeqAt depth (e.formEnv env v) es t := by
  cases hd : e.isDefinition with
  | true =>
    cases e with
    | define x d =>
      have hbody : (define x d).formBody.evalAt depth env s =
        d.evalWith (Value.applyAt depth) env s := rfl
      rw [evalSeqAt, Simulation.evalSeqWith_define _ env x d hes, Eval.bind_apply, hbody]
      rcases d.evalWith (Value.applyAt depth) env s with _ | ⟨_ | _, _⟩ <;> rfl
    | _ => cases hd
  | false =>
    obtain ⟨hbody, henv, -⟩ := form_of_not_definition hd
    rw [evalSeqAt, Simulation.evalSeqWith_cons _ env hd hes, Eval.bind_apply, hbody, evalAt]
    simp only [henv]
    rcases e.evalWith (Value.applyAt depth) env s with _ | ⟨_ | _, _⟩ <;> rfl

theorem evalSeqAt_single (he : e.formBody.evalAt depth env s = some (.ok v, t)) :
    evalSeqAt depth env [e] s =
      some (((sequenceFault [e]).map fun c => .error (.condition c)).getD
        (.ok (e.formValue v)), t) := by
  cases e with
  | define x d =>
    have hd : d.evalWith (Value.applyAt depth) env s = some (.ok v, t) := he
    simp only [evalSeqAt, evalSeqWith, Eval.bind_apply, hd]
    rfl
  | _ => exact he

theorem evalSeqAt_single_of_stops (he : e.formBody.evalAt depth env s = stopped stop) :
    evalSeqAt depth env [e] s = stopped stop := by
  cases e with
  | define x d =>
    have hd : d.evalWith (Value.applyAt depth) env s = stopped stop := he
    simp only [evalSeqAt, evalSeqWith, Eval.bind_apply, hd]
    cases stop <;> rfl
  | _ => exact he

/-- A sequence whose forms all come to values gives the last of them, unless it has something
against itself. -/
theorem evalSeqAt_of_gives (h : GivesValues depth env s es vs t) (last : Value) :
    evalSeqAt depth env es s =
      some (((sequenceFault es).map fun c => .error (.condition c)).getD
        (.ok (lastValue last es vs)), t) := by
  induction h generalizing last with
  | nil => rfl
  | @cons env s t u e v es vs he hes ih =>
    cases hes with
    | nil => exact evalSeqAt_single he
    | cons he' hes' =>
      rw [evalSeqAt_cons depth env e (by simp), he, sequenceFault_cons e (by simp), lastValue_cons]
      exact ih _

/-- A sequence stops where one of its forms does. -/
theorem evalSeqAt_of_stops (h : GivesValues depth env s done vs t)
    (hstop : form.formBody.evalAt depth (env.extendAll (definitions done vs)) t = stopped stop)
    (rest : List Expr) : evalSeqAt depth env (done ++ form :: rest) s = stopped stop := by
  induction h with
  | nil env s =>
    cases rest with
    | nil => exact evalSeqAt_single_of_stops hstop
    | cons f rest =>
      rw [List.nil_append, evalSeqAt_cons depth env form (by simp)]
      rw [show form.formBody.evalAt depth env s = stopped stop from hstop]
      cases stop <;> rfl
  | cons he _ ih =>
    rw [extendAll_definitions_cons] at hstop
    rw [List.cons_append, evalSeqAt_cons depth _ _ (by simp), he]
    exact ih hstop

end Expr

/-! ## Sessions -/

namespace Session

open Lambdict.Expr (GivesValues definitions lastValue stopped extendAll_definitions_cons
  lastValue_cons)

variable {depth : Nat} {s : Session} {t : Store} {form : Expr} {es done : List Expr}
  {vs : List Value} {stop : Option (Error × Store)}

/-- The session after forms that came to values, in a store. -/
def after (s : Session) (es : List Expr) (vs : List Value) (t : Store) : Session :=
  { s with env := s.env.extendAll (definitions es vs), store := t }

/-- **Forms that all come to values** leave all their definitions. -/
theorem evalForms_of_gives (h : GivesValues depth s.env s.store es vs t) (last : Value) :
    s.evalForms depth last es = some (.ok (lastValue last es vs), s.after es vs t) := by
  induction es generalizing s vs last with
  | nil =>
    cases h
    rfl
  | cons e es ih =>
    cases h with
    | cons he hes =>
      rw [evalForms_cons, he, lastValue_cons, after, extendAll_definitions_cons]
      exact ih hes _

/-- **A form that stops** leaves the definitions among the forms before it. -/
theorem evalForms_of_stops (h : GivesValues depth s.env s.store done vs t)
    (hstop : form.formBody.evalAt depth (s.env.extendAll (definitions done vs)) t = stopped stop)
    (last : Value) (rest : List Expr) :
    s.evalForms depth last (done ++ form :: rest) =
      stop.map fun p => (.error p.1, s.after done vs p.2) := by
  induction done generalizing s vs last with
  | nil =>
    cases h
    have hform : form.formBody.evalAt depth s.env s.store = stopped stop := hstop
    rw [List.nil_append, evalForms_cons, hform]
    cases stop <;> rfl
  | cons e done ih =>
    cases h with
    | cons he hdone =>
      rw [extendAll_definitions_cons] at hstop
      rw [List.cons_append, evalForms_cons, he]
      simp only [after, extendAll_definitions_cons]
      exact ih hdone hstop _

theorem evalForms_eq_ok_iff {last v : Value} {s' : Session} :
    s.evalForms depth last es = some (.ok v, s') ↔
      ∃ vs t, GivesValues depth s.env s.store es vs t ∧ v = lastValue last es vs ∧
        s' = s.after es vs t := by
  constructor
  · intro h
    rcases Expr.gives_or_stops depth s.env s.store es with
      ⟨vs, t, hes⟩ | ⟨done, form, rest, vs, t, stop, rfl, hdone, hstop⟩
    · rw [evalForms_of_gives hes last] at h
      cases h
      exact ⟨vs, t, hes, rfl, rfl⟩
    · rw [evalForms_of_stops hdone hstop last rest] at h
      cases stop <;> cases h
  · rintro ⟨vs, t, hes, rfl, rfl⟩
    exact evalForms_of_gives hes last

theorem evalForms_eq_error_iff {last : Value} {e : Error} {s' : Session} :
    s.evalForms depth last es = some (.error e, s') ↔
      ∃ done form rest vs t u, es = done ++ form :: rest ∧
        GivesValues depth s.env s.store done vs t ∧
        form.formBody.evalAt depth (s.env.extendAll (definitions done vs)) t = some (.error e, u) ∧
        s' = s.after done vs u := by
  constructor
  · intro h
    rcases Expr.gives_or_stops depth s.env s.store es with
      ⟨vs, t, hes⟩ | ⟨done, form, rest, vs, t, stop, rfl, hdone, hstop⟩
    · rw [evalForms_of_gives hes last] at h
      cases h
    · rw [evalForms_of_stops hdone hstop last rest] at h
      cases stop with
      | none => cases h
      | some p =>
        cases h
        exact ⟨done, form, rest, vs, t, p.2, rfl, hdone, hstop, rfl⟩
  · rintro ⟨done, form, rest, vs, t, u, rfl, hdone, hform, rfl⟩
    have hstop : form.formBody.evalAt depth (s.env.extendAll (Expr.definitions done vs)) t =
        Expr.stopped (some (e, u)) := hform
    exact evalForms_of_stops hdone hstop last rest

/-- **A text that can be read is evaluated form by form**: its names can be collected, and are
reserved first. -/
theorem eval_of_prepare {text : String} {program : List Expr} (h : s.prepare text = .ok program)
    (depth : Nat) : ∃ names, collectNames program = .ok names ∧
      Expr.EveryAll (Expr.NodeReady names) program ∧
      s.eval depth text =
        (s.adopt names program).2.evalForms depth .nothing (s.adopt names program).1 := by
  obtain ⟨names, hn, hready⟩ := exists_ready (prepare_sound h)
  exact ⟨names, hn, hready, by simp only [eval, h, hn]⟩

theorem eval_of_prepare_error {text : String} {e : Error} (h : s.prepare text = .error e)
    (depth : Nat) : s.eval depth text = some (.error e, s) := by
  simp only [eval, h]

end Session

end Lambdict
