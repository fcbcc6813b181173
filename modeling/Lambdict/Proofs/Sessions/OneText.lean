import Lambdict.Proofs.Sessions.Forms

/-!
# One text, in a session and by itself

A text can be run by itself, as one sequence, or given to a session that has seen nothing.  The two
go through the same forms with the same names reserved and from the same store
(`Session.start_adopt`), so what one form comes to, the other comes to as well, down to the names
that are drawn.

They differ in one point.  A sequence must have a value, while a session is content with none.  So
where all forms come to values and the last one is a definition, or there is no form at all, the
sequence fails of itself (`Expr.Refuses`), and the session gives nothing.  A trailing definition
whose own value cannot be had is no such case: both then end with that failure, even if it is of the
same kind (`runText_eq_session`).
-/

namespace Lambdict

namespace Expr

theorem map_definedName?_placeAll (n : Nat) (es : List Expr) :
    (placeAll n es).1.map definedName? = es.map definedName? := by
  induction es generalizing n with
  | nil => rfl
  | cons e es ih =>
    have he : (e.place n).1.definedName? = e.definedName? := by cases e <;> rfl
    simp only [placeAll, List.map_cons, he, ih]

theorem definedName?_desugar (strategy : Strategy) (e : Expr) :
    (e.desugar strategy).definedName? = e.definedName? := by
  cases e with
  | app f es =>
    obtain ⟨f', es', h⟩ := exists_desugar_app strategy f es
    rw [h]
    rfl
  | _ => rfl

theorem map_definedName?_desugarAll (strategy : Strategy) (es : List Expr) :
    (desugarAll strategy es).map definedName? = es.map definedName? := by
  induction es with
  | nil => rfl
  | cons e es ih => simp only [desugarAll, List.map_cons, definedName?_desugar, ih]

/-- **A program that refuses itself**: all its forms come to values, and then it turns out to be
empty or to end in a definition. -/
def Refuses (depth : Nat) (program : List Expr) (c : Condition) : Prop :=
  sequenceFault program = some c ∧ ∃ names vs t, collectNames program = .ok names ∧
    GivesValues depth .empty (.start (.start names)) (placeAll 0 program).1 vs t

theorem kind_of_sequenceFault {es : List Expr} {c : Condition} (h : sequenceFault es = some c) :
    c.kind = "EmptySequence" := by
  unfold sequenceFault at h
  split at h
  · cases h
    rfl
  · obtain ⟨x, -, rfl⟩ := Option.map_eq_some_iff.1 h
    rfl

/-- What a session gives for forms of which the last is a definition, or that are none. -/
theorem lastValue_of_sequenceFault {depth : Nat} {env : Environment} {s t : Store} {es : List Expr}
    {vs : List Value} (h : GivesValues depth env s es vs t) {c : Condition}
    (hc : sequenceFault es = some c) (last : Value) (hlast : es = [] → last = .nothing) :
    lastValue last es vs = .nothing := by
  induction h generalizing last with
  | nil => exact hlast rfl
  | @cons env s t u e v es vs _ hes ih =>
    rw [lastValue_cons]
    by_cases hnil : es = []
    · subst hnil
      cases hes
      cases e with
      | define => rfl
      | _ => cases hc
    · rw [sequenceFault_cons e hnil] at hc
      exact ih hc _ fun h => absurd h hnil

end Expr

theorem Settings.sequenceFault_prepare (settings : Settings) (program : List Expr) :
    Expr.sequenceFault (settings.prepare program) = Expr.sequenceFault program := by
  unfold Settings.prepare
  split
  · exact Expr.sequenceFault_congr (Expr.map_definedName?_desugarAll _ program)
  · rfl

namespace Session

/-- A session that has seen nothing begins a text as a run of its program does. -/
theorem start_adopt (settings : Settings) (names : NameSet) (program : List Expr) :
    (start settings).adopt names program = ((Expr.placeAll 0 program).1,
      ⟨settings, .empty, .start (.start names), (Expr.placeAll 0 program).2⟩) := by
  have hnames : NameSet.union ∅ names = names := NameSet.ext fun a => by
    rw [NameSet.mem_union]
    exact or_iff_right (NameSet.not_mem_empty a)
  have hreserve : (NameSupply.start ∅).reserve names = .start names :=
    congrArg (NameSupply.mk 0) hnames
  simp only [adopt, start, Store.start, hreserve]

end Session

section

open Lambdict.Expr (GivesValues Refuses sequenceFault)

variable {depth : Nat} {settings : Settings} {text : String} {program : List Expr}

/-- A text by itself, and the same text in a session that has seen nothing: both are evaluated with
the names of its program reserved. -/
theorem runText_and_session (depth : Nat) (settings : Settings)
    (hp : parseProgram text = .ok program) :
    ∃ names, collectNames (settings.prepare program) = .ok names ∧
      runText depth settings text =
        (Expr.evalSeqAt depth .empty (Expr.placeAll 0 (settings.prepare program)).1
          (.start (.start names))).map (fun r => Outcome.capture r.1) ∧
      ((Session.start settings).run depth text).map Prod.fst =
        (Session.evalForms depth
          ⟨settings, .empty, .start (.start names), (Expr.placeAll 0 (settings.prepare program)).2⟩
          .nothing (Expr.placeAll 0 (settings.prepare program)).1).map
            fun r => Outcome.capture r.1 := by
  have hprepare : (Session.start settings).prepare text = .ok (settings.prepare program) := by
    rw [Session.prepare, hp]
    rfl
  obtain ⟨names, hn, -, heval⟩ := Session.eval_of_prepare hprepare depth
  rw [Session.start_adopt] at heval
  refine ⟨names, hn, ?_, ?_⟩
  · simp only [runText, hp]
    rw [runProgram_of_collectNames (Session.prepare_sound hprepare) hn]
  · rw [Session.run, heval, Option.map_map]
    rfl

theorem sequenceFault_placed (settings : Settings) (program : List Expr) :
    sequenceFault (Expr.placeAll 0 (settings.prepare program)).1 = sequenceFault program :=
  (Expr.sequenceFault_congr (Expr.map_definedName?_placeAll 0 _)).trans
    (settings.sequenceFault_prepare program)

theorem runText_of_parse_error {e : Error} (h : parseProgram text = .error e) :
    runText depth settings text = ((Session.start settings).run depth text).map Prod.fst := by
  have hprepare : (Session.start settings).prepare text = .error e := by
    rw [Session.prepare, h]
    rfl
  rw [Session.run, Session.eval_of_prepare_error hprepare]
  simp only [runText, h]
  rfl

/-- A program that refuses itself fails as a run and gives nothing in a session. -/
theorem runText_of_refuses (hp : parseProgram text = .ok program) {c : Condition}
    (hc : Refuses depth (settings.prepare program) c) :
    runText depth settings text = some (Outcome.ofError (.condition c)) ∧
      ((Session.start settings).run depth text).map Prod.fst = some (.ok (.ok .nothing)) := by
  obtain ⟨names, hn, hr, hi⟩ := runText_and_session depth settings hp
  obtain ⟨hfault, names', vs, t, hn', hes⟩ := hc
  obtain rfl := Except.ok.inj (hn.symm.trans hn')
  rw [settings.sequenceFault_prepare, ← sequenceFault_placed settings] at hfault
  refine ⟨?_, ?_⟩
  · rw [hr, Expr.evalSeqAt_of_gives hes .nothing, hfault]
    rfl
  · rw [hi, Session.evalForms_of_gives hes .nothing,
      Expr.lastValue_of_sequenceFault hes hfault .nothing fun _ => rfl]
    rfl

/-- Any other program comes to the same both ways; and where it is empty or ends in a definition,
that is no value. -/
theorem runText_of_not_refuses (hp : parseProgram text = .ok program)
    (h : ∀ c, ¬ Refuses depth (settings.prepare program) c) :
    runText depth settings text = ((Session.start settings).run depth text).map Prod.fst ∧
      (sequenceFault program ≠ none → ∀ v, runText depth settings text ≠ some (.ok (.ok v))) := by
  obtain ⟨names, hn, hr, hi⟩ := runText_and_session depth settings hp
  rw [hr, hi]
  rcases Expr.gives_or_stops depth .empty (.start (.start names))
      (Expr.placeAll 0 (settings.prepare program)).1 with
    ⟨vs, t, hes⟩ | ⟨done, form, rest, vs, t, stop, hforms, hdone, hstop⟩
  · have hnone : sequenceFault program = none := by
      rw [← settings.sequenceFault_prepare, Option.eq_none_iff_forall_not_mem]
      exact fun c hc => h c ⟨hc, names, vs, t, hn, hes⟩
    refine ⟨?_, fun hfault => absurd hnone hfault⟩
    rw [Expr.evalSeqAt_of_gives hes .nothing, Session.evalForms_of_gives hes .nothing,
      sequenceFault_placed, hnone]
    rfl
  · rw [hforms, Expr.evalSeqAt_of_stops hdone hstop rest,
      Session.evalForms_of_stops hdone hstop .nothing rest]
    refine ⟨by cases stop <;> rfl, fun _ v => ?_⟩
    rcases stop with _ | ⟨_ | _, _⟩ <;> nofun

/-- **The two ways to run a text agree.**  A text that cannot be parsed comes to the same in a
session that has seen nothing and by itself, and so does a program that ends in an expression: the
same value with the same drawn names, the same failure, the same abort, or no end within the depth.
Of any other program the session gives nothing exactly when the run fails because the program, all
its forms having come to values, is empty or ends in a definition; in every other case both come to
the same, which is no value. -/
theorem runText_eq_session (depth : Nat) (settings : Settings) (text : String) :
    let r := runText depth settings text
    let i := ((Session.start settings).run depth text).map Prod.fst
    (∀ e, parseProgram text = .error e → r = i) ∧
    ∀ program, parseProgram text = .ok program →
      ((∃ e, program.getLast? = some e ∧ e.isDefinition = false) → r = i) ∧
      (program = [] ∨ (∃ x e, program.getLast? = some (.define x e)) →
        (i = some (.ok (.ok .nothing)) ↔ ∃ c, Refuses depth (settings.prepare program) c ∧
          c.kind = "EmptySequence" ∧ r = some (.ok (.failure c.kind c.message (some c)))) ∧
        (i ≠ some (.ok (.ok .nothing)) → r = i ∧ ∀ v, r ≠ some (.ok (.ok v)))) := by
  intro r i
  refine ⟨fun e he => runText_of_parse_error he, fun program hp => ⟨?_, fun hlast => ?_⟩⟩
  · rintro ⟨e, hlast, he⟩
    have hnone : sequenceFault program = none := by
      rw [sequenceFault, hlast]
      cases e <;> first | rfl | cases he
    refine (runText_of_not_refuses hp fun c hc => ?_).1
    have hfault := hc.1
    rw [settings.sequenceFault_prepare, hnone] at hfault
    cases hfault
  · have hfault : sequenceFault program ≠ none := by
      rcases hlast with rfl | ⟨x, e, hlast⟩
      · exact Option.some_ne_none _
      · rw [sequenceFault, hlast]
        exact Option.some_ne_none _
    by_cases h : ∃ c, Refuses depth (settings.prepare program) c
    · obtain ⟨c, hc⟩ := h
      obtain ⟨hr, hi⟩ := runText_of_refuses hp hc
      exact ⟨iff_of_true hi ⟨c, hc, Expr.kind_of_sequenceFault hc.1, hr⟩, fun hne => absurd hi hne⟩
    · obtain ⟨hri, hvalue⟩ := runText_of_not_refuses hp fun c hc => h ⟨c, hc⟩
      have hne : i ≠ some (.ok (.ok .nothing)) := fun hi => hvalue hfault _ (hri.trans hi)
      refine ⟨iff_of_false hne ?_, fun _ => ⟨hri, hvalue hfault⟩⟩
      rintro ⟨c, hc, -⟩
      exact h ⟨c, hc⟩

/-- The definition that comes last fails by itself, and with the kind of failure that a program
ending in a definition has. -/
example : ((Session.start ⟨false, .construct⟩).run 1
      "(define x ((lambda () (define y 'a))))").map (fun r => r.1.map Outcome.plain) =
    some (.ok "EmptySequence: Sequence ends with the definition of y") := by
  decide +kernel

end

end Lambdict
