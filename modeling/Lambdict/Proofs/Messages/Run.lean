import Lambdict.Outcome
import Lambdict.Proofs.Messages.Rewording

/-!
# Messages of desugared programs

A program text that fails also fails when it is desugared first, with a condition of the same kind,
and with the same message unless that is one the strategy may reword (`runText_fails_desugared`):
one that shows a closure and then a literal with entries, or with *lookup* also the call of an empty
literal or a name with a number.

A message that shows a literal in a closure does differ (`runText_shows_desugared`).
-/

namespace Lambdict

/-! ## Programs -/

theorem starts_construct {p : List Expr} (hp : Expr.EveryAll Expr.NodeSound p) :
    constructSimulation.Starts p (Expr.desugarAll .construct p) := by
  obtain ⟨N, hN, -⟩ := exists_ready hp
  have hN' : collectNames (Expr.desugarAll .construct p) = .ok N :=
    (Expr.addNamesAll_desugar p ∅).trans hN
  have hp' := Expr.EveryAll.desugar .construct hp
  have hplaced := Expr.EveryAll.place Expr.NodeReadable.place 0 (hp.imp fun _ h => h.2)
  refine ⟨(), _, _, _, _, rfl, forall₂_expands.2 (Expr.expandAll_eq .construct hplaced).symm,
    fun k => runProgram_of_collectNames hp hN k, fun k => ?_⟩
  rw [runProgram_of_collectNames hp' hN', Expr.placeAll_desugarAll]

/-- A program that begins like one that fails also fails, and says the same. -/
theorem Simulation.Starts.fails {S : Simulation} {P : String → Prop} [Grows P]
    (hS : S.Wording P) {p p' : List Expr} (h : S.Starts p p') {depth : Nat} {e : Error} {t : Store}
    (hfail : runProgram depth p = some (.error e, t)) :
    ∃ k e' t', runProgram k p' = some (.error e', t') ∧ e.Alike e' ∧
      SaysSame P e.message e'.message := by
  obtain ⟨W, s, s', es, es', hs, hes, hrun, hrun'⟩ := h
  rw [hrun] at hfail
  obtain ⟨k, e', t', hk, hends⟩ :=
    Simulation.evalSeqAt_fails hS hes Simulation.EnvRel.empty hs hfail
  exact ⟨k, e', t', (hrun' k).trans hk, hends⟩

theorem runProgram_fails_desugared {p : List Expr} (hp : Expr.EveryAll Expr.NodeSound p)
    (strategy : Strategy) {depth : Nat} {e : Error} {t : Store}
    (h : runProgram depth p = some (.error e, t)) :
    ∃ k e' t', runProgram k (Expr.desugarAll strategy p) = some (.error e', t') ∧ e.Alike e' ∧
      SaysSame strategy.Rewords e.message e'.message := by
  cases strategy with
  | construct => exact (starts_construct hp).fails wording_construct h
  | lookup => exact (starts_lookup hp).fails wording_matching h

/-- What is captured as a failure was a condition. -/
theorem capture_eq_failure {r : Except Error Value} {kind message : String}
    {cause : Option Condition} (h : Outcome.capture r = .ok (.failure kind message cause)) :
    ∃ c, r = .error (.condition c) ∧ c.kind = kind ∧ c.message = message := by
  cases r with
  | ok v => cases h
  | error e =>
    cases e with
    | abort a => cases h
    | condition c =>
      cases h
      exact ⟨c, rfl, rfl, rfl⟩

/-- **A program text that fails also fails when it is desugared first**, by either strategy.  The
condition is of the same kind, and the message is the same unless it is one that the strategy may
reword. -/
theorem runText_fails_desugared {text : String} {depth : Nat} {strategy : Strategy}
    {kind message : String} {cause : Option Condition}
    (h : runText depth ⟨false, strategy⟩ text = some (.ok (.failure kind message cause))) :
    ∃ k message' cause', runText k ⟨true, strategy⟩ text =
      some (.ok (.failure kind message' cause')) ∧
        (¬ strategy.Rewords message → message' = message) := by
  unfold runText at h ⊢
  cases hp : parseProgram text with
  | error e =>
    rw [hp] at h
    exact ⟨0, message, cause, h, fun _ => rfl⟩
  | ok p =>
    rw [hp] at h
    obtain ⟨⟨r, t⟩, hr, hfail⟩ := Option.map_eq_some_iff.1 h
    obtain ⟨c, rfl, rfl, rfl⟩ := capture_eq_failure hfail
    obtain ⟨k, e', t', hk, halike, hwording⟩ :=
      runProgram_fails_desugared (parseProgram_sound hp) strategy hr
    cases halike with
    | @condition _ d hc =>
      refine ⟨k, d.message, some d, ?_, hwording⟩
      simp only [Settings.prepare, if_true, hk, Option.map_some, Outcome.capture, Outcome.ofError,
        hc.kind]

/-- A message that shows a dictionary and a closure without a literal. -/
theorem runText_fails_desugared_dictionary :
    let text := "(+ (lambda (y) y) (dict (a 'x)))"
    let message := "+: expects numbers only [<Closure (y) y>, #dict((a x))]"
    (∃ cause, runText 0 ⟨false, .construct⟩ text =
        some (.ok (.failure "TypeMismatch" message cause))) ∧
      Shows "Closure (" message ∧ ¬ Strategy.construct.Rewords message ∧
      ∃ k cause, runText k ⟨true, .construct⟩ text =
        some (.ok (.failure "TypeMismatch" message cause)) := by
  intro text message
  have hparse : parseProgram "(+ (lambda (y) y) (dict (a 'x)))" = .ok [.app (.prim .add)
      [.lambda ["y"] [.var "y"], .dict [("a", .quote (.symbol "x"))]]] := rfl
  have hfail : ∃ cause, runText 0 ⟨false, .construct⟩ text =
      some (.ok (.failure "TypeMismatch" message cause)) := by
    simp only [runText, text, hparse]
    exact ⟨_, rfl⟩
  have hshows : ¬ Strategy.construct.Rewords message := fun h => absurd h.showsPart (by decide)
  obtain ⟨cause, hcause⟩ := hfail
  obtain ⟨k, message', cause', hk, hwording⟩ := runText_fails_desugared hcause
  rw [hwording hshows] at hk
  exact ⟨⟨cause, hcause⟩, by decide, hshows, k, cause', hk⟩

/-- **A message that shows a literal in a closure differs.**  The literal in the body is shown as it
was desugared. -/
theorem runText_shows_desugared :
    (∃ cause, runText 0 ⟨false, .construct⟩ "(+ (lambda () (dict (a #t))) #t)" =
        some (.ok (.failure "TypeMismatch"
          "+: expects numbers only [<Closure () (dict (a #t))>, #t]" cause))) ∧
      ∃ cause, runText 0 ⟨true, .construct⟩ "(+ (lambda () (dict (a #t))) #t)" =
        some (.ok (.failure "TypeMismatch"
          "+: expects numbers only [<Closure () (dict (cons 'a #t))>, #t]" cause)) :=
  ⟨⟨_, rfl⟩, ⟨_, rfl⟩⟩

end Lambdict
