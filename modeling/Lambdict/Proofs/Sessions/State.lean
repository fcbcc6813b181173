import Lambdict.Proofs.Sessions.Forms

/-!
# What a text leaves behind

A text changes a session at three places.  Its names are reserved before any form is evaluated, each
definition that comes to a value is bound, and the calls that are made on the way draw names.  A
failure takes none of this back.  So the session after a text that failed is known exactly: it is as
the forms before the one that failed have left it (`Session.eval_leaves`).

A text that cannot be read changes nothing.  And whatever a text comes to, it only puts bindings in
front of those that are there.
-/

namespace Lambdict

namespace Environment

theorem bindings_extendAll (env : Environment) (bindings : List (String × Value)) :
    (env.extendAll bindings).bindings = bindings.reverse ++ env.bindings := by
  induction bindings generalizing env with
  | nil => rfl
  | cons b bindings ih =>
    have hcons : env.extendAll (b :: bindings) = (env.extend b.1 b.2).extendAll bindings := rfl
    rw [hcons, ih]
    simp [extend]

theorem suffix_extendAll (env : Environment) (bindings : List (String × Value)) :
    env.bindings <:+ (env.extendAll bindings).bindings := by
  rw [bindings_extendAll]
  exact List.suffix_append ..

end Environment

namespace Session

open Lambdict.Expr (GivesValues definitions lastValue)

variable {depth : Nat} {s s' : Session} {es : List Expr}

/-- What forms keep of a session, and in which direction they change the rest. -/
theorem evalForms_keeps {last : Value} {r : Except Error Value}
    (h : s.evalForms depth last es = some (r, s')) :
    s'.store.names.reserved = s.store.names.reserved ∧
      s.store.names.counter ≤ s'.store.names.counter ∧ s.env.bindings <:+ s'.env.bindings := by
  cases r with
  | ok v =>
    obtain ⟨vs, t, hes, -, rfl⟩ := evalForms_eq_ok_iff.1 h
    exact ⟨hes.names.1, hes.names.2, s.env.suffix_extendAll _⟩
  | error e =>
    obtain ⟨done, form, rest, vs, t, u, -, hdone, hform, rfl⟩ := evalForms_eq_error_iff.1 h
    -- the form that failed may have drawn names as well
    obtain ⟨hreserved, hcounter⟩ := Expr.evalAt_names hform
    exact ⟨hreserved.trans hdone.names.1, Int.le_trans hdone.names.2 hcounter,
      s.env.suffix_extendAll _⟩

theorem eval_suffix {text : String} {r : Except Error Value}
    (h : s.eval depth text = some (r, s')) : s.env.bindings <:+ s'.env.bindings := by
  cases hp : s.prepare text with
  | error e =>
    rw [eval_of_prepare_error hp] at h
    cases h
    exact List.suffix_rfl
  | ok program =>
    obtain ⟨names, -, -, heval⟩ := eval_of_prepare hp depth
    rw [heval] at h
    exact (evalForms_keeps h).2.2

/-- **What a text leaves of a session**, whether it is evaluated or run.

A text that cannot be read, parsed or expanded leaves the session as it is.  Any other has its names
collected, and from then on they are reserved together with those from before.  It fails exactly
when some form fails, after forms that all came to values; the session then has the old environment
with the definitions among those forms, and the store that the failure left.  It gives a value
exactly when all forms do, and then all definitions are there.  In every case the number of the last
name drawn has not fallen, and the old environment is a tail of the new one. -/
theorem eval_leaves (depth : Nat) (s : Session) (text : String) :
    (∀ e, s.prepare text = .error e →
      s.eval depth text = some (.error e, s) ∧
        s.run depth text = some (Outcome.ofError e, s)) ∧
    (∀ program, s.prepare text = .ok program → ∃ names, collectNames program = .ok names ∧
      let forms := (s.adopt names program).1
      let opened := (s.adopt names program).2
      (∀ e s', s.eval depth text = some (.error e, s') ↔
        ∃ done form rest vs t u, forms = done ++ form :: rest ∧
          GivesValues depth s.env opened.store done vs t ∧
          form.formBody.evalAt depth (s.env.extendAll (definitions done vs)) t =
            some (.error e, u) ∧
          s' = { opened with env := s.env.extendAll (definitions done vs), store := u }) ∧
      (∀ v s', s.eval depth text = some (.ok v, s') ↔
        ∃ vs t, GivesValues depth s.env opened.store forms vs t ∧ v = lastValue .nothing forms vs ∧
          s' = { opened with env := s.env.extendAll (definitions forms vs), store := t }) ∧
      ∀ r s', s.eval depth text = some (r, s') →
        s'.store.names.reserved = s.store.names.reserved.union names ∧
          s.store.names.counter ≤ s'.store.names.counter) ∧
    ∀ r s', s.eval depth text = some (r, s') →
      s.run depth text = some (Outcome.capture r, s') ∧ s.env.bindings <:+ s'.env.bindings := by
  refine ⟨fun e he => ?_, fun program hp => ?_, fun r s' h => ?_⟩
  · have heval := eval_of_prepare_error he depth
    exact ⟨heval, by rw [run, heval]; rfl⟩
  · obtain ⟨names, hn, -, heval⟩ := eval_of_prepare hp depth
    rw [heval]
    refine ⟨names, hn, fun e s' => evalForms_eq_error_iff, fun v s' => evalForms_eq_ok_iff,
      fun r s' h => ?_⟩
    obtain ⟨hreserved, hcounter, -⟩ := evalForms_keeps h
    exact ⟨hreserved, hcounter⟩
  · exact ⟨by rw [run, h]; rfl, eval_suffix h⟩

/-- The third form draws a name and then fails.  The fourth is not reached, but its name is
reserved. -/
example : ((start ⟨false, .construct⟩).eval 1
    "(define f (lambda (x) (lambda (y) x))) (define g (f 'a)) ((f 'b)) (define z 'c)").map
      (fun r => (r.2.env.bindings.map Prod.fst, r.2.store.names)) =
    some (["g", "f"], ⟨2, .ofList ["f", "g", "x", "y", "z"]⟩) := by
  decide +kernel

end Session

end Lambdict
