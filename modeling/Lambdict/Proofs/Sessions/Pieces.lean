import Lambdict.Proofs.Alpha
import Lambdict.Proofs.Identifiers
import Lambdict.Proofs.Reading.Joining
import Lambdict.Proofs.Sessions.Forms

/-!
# Texts in pieces

A session that is given two texts one after the other ends up as if it had been given both at once,
one below the other (`Session.eval_pieces`).

The two ways differ in when names are reserved.  Given at once, the names of both texts are reserved
before the first form is evaluated; given in pieces, those of the second are reserved after the
first is done.  So the forms of the first text may draw different names, and from then on nothing is
quite the same.  But at every moment the two sessions match (`Session.Beside`): what they have
defined differs only in the names of parameters, and neither supply will give a name that is in
sight in its session.  Forms that match keep it so (`Session.Beside.forms`), and a form whose names
both sessions have reserved matches itself (`Expr.MatchesSeq.refl_place_of_ready`).

All this is about sessions that can come up (`Session.Reachable`).  A session that was put together
by hand may hold a closure with names that nobody has reserved.
-/

namespace Lambdict

/-! ## Programs one after the other -/

namespace Expr

theorem desugarAll_append (strategy : Strategy) (es fs : List Expr) :
    desugarAll strategy (es ++ fs) = desugarAll strategy es ++ desugarAll strategy fs := by
  induction es with
  | nil => rfl
  | cons e es ih => rw [List.cons_append, desugarAll, ih, desugarAll, List.cons_append]

theorem placeAll_append (n : Nat) (es fs : List Expr) :
    placeAll n (es ++ fs) = ((placeAll n es).1 ++ (placeAll (placeAll n es).2 fs).1,
      (placeAll (placeAll n es).2 fs).2) := by
  induction es generalizing n with
  | nil => rfl
  | cons e es ih =>
    simp only [List.cons_append, placeAll, ih]

theorem everyAll_append {P : Expr → Prop} {es fs : List Expr} :
    EveryAll P (es ++ fs) ↔ EveryAll P es ∧ EveryAll P fs := by
  simp only [everyAll_iff, List.forall_mem_append]

theorem NodeReady.mono {M N : NameSet} (h : ∀ x, x ∈ M → x ∈ N) (e : Expr) (he : NodeReady M e) :
    NodeReady N e :=
  ⟨he.1, NodeNames.imp h e he.2⟩

end Expr

theorem Settings.prepare_append (settings : Settings) (p q : List Expr) :
    settings.prepare (p ++ q) = settings.prepare p ++ settings.prepare q := by
  unfold Settings.prepare
  split
  · exact Expr.desugarAll_append _ p q
  · rfl

theorem Settings.prepare_ne_nil (settings : Settings) {p : List Expr} (h : p ≠ []) :
    settings.prepare p ≠ [] := by
  unfold Settings.prepare
  split
  · cases p with
    | nil => exact absurd rfl h
    | cons e p => exact nofun
  · exact h

namespace Session

variable {depth : Nat} {s s' : Session} {W : World}

/-! ## Forms one after the other -/

theorem evalForms_append (depth : Nat) (s : Session) (last : Value) (es fs : List Expr) :
    s.evalForms depth last (es ++ fs) =
      match s.evalForms depth last es with
      | none => none
      | some (.error e, s') => some (.error e, s')
      | some (.ok v, s') => s'.evalForms depth v fs := by
  induction es generalizing s last with
  | nil => rfl
  | cons e es ih =>
    rw [List.cons_append, evalForms_cons, evalForms_cons]
    rcases e.formBody.evalAt depth s.env s.store with _ | ⟨_ | v, t⟩
    · rfl
    · rfl
    · exact ih _ _

theorem evalForms_last {es : List Expr} (hes : es ≠ []) (depth : Nat) (s : Session)
    (last last' : Value) : s.evalForms depth last es = s.evalForms depth last' es := by
  cases es with
  | nil => exact absurd rfl hes
  | cons e es => rw [evalForms_cons, evalForms_cons]

/-- The settings of a session, and the count of the objects that came with texts, are the same after
forms that came to values. -/
theorem evalForms_fixed {last v : Value} {es : List Expr}
    (h : s.evalForms depth last es = some (.ok v, s')) :
    s'.settings = s.settings ∧ s'.given = s.given := by
  obtain ⟨vs, t, -, -, rfl⟩ := evalForms_eq_ok_iff.1 h
  exact ⟨rfl, rfl⟩

/-! ## Two sessions side by side -/

/-- **Two sessions that match at a moment.** -/
structure Beside (W : World) (s s' : Session) : Prop where
  fits : W.Fits s.store s'.store
  env : (matching False).EnvRel W s.env s'.env
  given : ∀ n, W.same (.given n) (.given n)

/-- Results of two sessions, and the sessions that they leave: these match at a later moment, and so
do the results. -/
def Results (W : World) (r r' : Except Error Value × Session) : Prop :=
  ∃ V, W.Le V ∧ Beside V r.2 r'.2 ∧ Agree (Value.Matches (V.link False)) r.1 r'.1

section

variable {e e' : Expr} (he : e.Matches (W.link False) (W.link False).base e')

include he

/-- Of two forms that match, both define one name or neither defines any; so what they evaluate
matches, and so does what they leave. -/
theorem form_matches :
    e.formBody.Matches (W.link False) (W.link False).base e'.formBody ∧
      ∀ {V : World} {env env' : Environment} {v v' : Value}, (matching False).EnvRel V env env' →
        v.Matches (V.link False) v' →
        (matching False).EnvRel V (e.formEnv env v) (e'.formEnv env' v') ∧
          (e.formValue v).Matches (V.link False) (e'.formValue v') := by
  rcases Simulation.expr_definition (S := matching False) he with
    ⟨hd, hd'⟩ | ⟨x, d, d', rfl, rfl, hd⟩
  · obtain ⟨hbody, henv, hvalue⟩ := Expr.form_of_not_definition hd
    obtain ⟨hbody', henv', hvalue'⟩ := Expr.form_of_not_definition hd'
    simp only [hbody, henv, hvalue, hbody', henv', hvalue']
    exact ⟨he, fun henv hv => ⟨henv, hv⟩⟩
  · exact ⟨hd, fun henv hv => ⟨henv.extend x hv, .plain rfl⟩⟩

/-- One form in each of two sessions. -/
theorem Beside.form (h : Beside W s s') (depth : Nat) :
    Option.Rel (fun o o' => ∃ V, W.Le V ∧ V.Fits o.2 o'.2 ∧
        Agree (Value.Matches (V.link False)) o.1 o'.1)
      (e.formBody.evalAt depth s.env s.store) (e'.formBody.evalAt depth s'.env s'.store) :=
  (Simulation.evalAt_runs ((matching False).applies depth) e.formBody (form_matches he).1
    h.env).together id h.fits

end

/-- **Forms that match keep two sessions side by side.** -/
theorem Beside.forms (h : Beside W s s') {es es' : List Expr}
    (hes : List.Forall₂ (Expr.Matches (W.link False) (W.link False).base) es es')
    {last last' : Value} (hlast : last.Matches (W.link False) last') :
    Option.Rel (Results W) (s.evalForms depth last es) (s'.evalForms depth last' es') := by
  induction es generalizing W s s' es' last last' with
  | nil =>
    cases hes
    exact .some ⟨W, .refl W, h, .ok hlast⟩
  | cons e es ih =>
    obtain _ | ⟨he, hes⟩ := hes
    rename_i e' es'
    have hform := h.form he depth
    rw [evalForms_cons, evalForms_cons]
    generalize e.formBody.evalAt depth s.env s.store = o at hform ⊢
    generalize e'.formBody.evalAt depth s'.env s'.store = o' at hform ⊢
    cases hform with
    | none => exact .none
    | @some o o' hform =>
      obtain ⟨V, hle, hfits, hagree⟩ := hform
      obtain ⟨r, t⟩ := o
      obtain ⟨r', t'⟩ := o'
      have henv := h.env.mono hle
      have hgiven (n : Nat) := hle.same _ _ (h.given n)
      cases hagree with
      | error herror => exact .some ⟨V, hle, ⟨hfits, henv, hgiven⟩, .error herror⟩
      | @ok v v' hv =>
        obtain ⟨henv', hvalue⟩ := (form_matches he).2 henv hv
        have hnext : Beside V { s with store := t, env := e.formEnv s.env v }
            { s' with store := t', env := e'.formEnv s'.env v' } := ⟨hfits, henv', hgiven⟩
        refine rel_imp ?_ (ih hnext (Simulation.expr_mono_all (S := matching False) hle hes) hvalue)
        rintro o o' ⟨U, hU, hrest⟩
        exact ⟨U, hle.trans hU, hrest⟩

/-- Two sessions of which the first takes up a program. -/
theorem Beside.adopt_left (h : Beside W s s') (names : NameSet) (program : List Expr) :
    Beside { W with left := W.left.reserve names } (s.adopt names program).2 s' := by
  have hle : W.Le { W with left := W.left.reserve names } :=
    ⟨fun _ _ h => h, (W.left.reserves_reserve names).le, .refl _⟩
  refine ⟨⟨?_, h.fits.right, h.fits.older, h.fits.one_to_one, h.fits.unlimited⟩, h.env.mono hle,
    h.given⟩
  exact congrArg (NameSupply.reserve · names) h.fits.left

/-- Two sessions of which the second takes up a program. -/
theorem Beside.adopt_right (h : Beside W s s') (names : NameSet) (program : List Expr) :
    Beside { W with right := W.right.reserve names } s (s'.adopt names program).2 := by
  have hle : W.Le { W with right := W.right.reserve names } :=
    ⟨fun _ _ h => h, .refl _, (W.right.reserves_reserve names).le⟩
  refine ⟨⟨h.fits.left, ?_, h.fits.older, h.fits.one_to_one, h.fits.unlimited⟩, h.env.mono hle,
    h.given⟩
  exact congrArg (NameSupply.reserve · names) h.fits.right

/-- The forms of a program keep two sessions side by side that have both reserved its names. -/
theorem Beside.program (h : Beside W s s') (depth : Nat) {N N' : NameSet} {program : List Expr}
    (hN : Expr.EveryAll (Expr.NodeReady N) program) (hl : ∀ x, x ∈ N → x ∈ W.left.reserved)
    (hN' : Expr.EveryAll (Expr.NodeReady N') program) (hr : ∀ x, x ∈ N' → x ∈ W.right.reserved)
    (n : Nat) :
    Option.Rel (Results W) (s.evalForms depth .nothing (Expr.placeAll n program).1)
      (s'.evalForms depth .nothing (Expr.placeAll n program).1) := by
  have hseq := Expr.MatchesSeq.refl_place_of_ready h.given
    (Expr.EveryAll.imp (Expr.NodeReady.mono hl) hN) (Expr.EveryAll.imp (Expr.NodeReady.mono hr) hN')
    n
  exact h.forms (hseq.forall₂ (World.names_of_defines False W)) (.plain rfl)

/-! ## Two texts -/

/-- **Two texts one after the other**; the second is not begun when the first fails. -/
def evalPieces (depth : Nat) (s : Session) (text text' : String) :
    Option (Except Error Value × Session) :=
  match s.eval depth text with
  | none => none
  | some (.error e, s') => some (.error e, s')
  | some (.ok _, s') => s'.eval depth text'

/-- **Sessions that can come up**: one that has seen nothing, and what a text makes of another. -/
inductive Reachable : Session → Prop
  | start (settings : Settings) : Reachable (start settings)
  | eval {s s' : Session} {depth : Nat} {text : String} {r : Except Error Value} (hs : Reachable s)
      (h : s.eval depth text = some (r, s')) : Reachable s'

/-- In a session that can come up, all that is defined matches itself. -/
theorem Reachable.exists_fit (h : Reachable s) : ∃ W, s.Fit W := by
  induction h with
  | start settings => exact ⟨_, fit_start settings⟩
  | eval _ h ih =>
    obtain ⟨W, hW⟩ := ih
    exact (hW.text _ _).2 _ _ h

/-- Two sessions that came to values, seen from outside. -/
theorem Results.alphaEq {r r' : Except Error Value × Session} (h : Results W r r') :
    Agree Value.AlphaEq r.1 r'.1 ∧
      List.Forall₂ (EntryRel Value.AlphaEq) r.2.env.bindings r'.2.env.bindings := by
  obtain ⟨V, -, hbeside, hagree⟩ := h
  refine ⟨hagree.imp fun _ _ hv => hv.mono V.link_le_alpha, ?_⟩
  exact hbeside.env.imp fun _ _ he => ⟨he.1, he.2.mono V.link_le_alpha⟩

/-- The forms of two programs, taken up one after the other and both at once. -/
theorem Fit.pieces (h : s.Fit W) {text text' joined : String} {q q' : List Expr}
    (hq : s.prepare text = .ok q) (hq' : s.prepare text' = .ok q')
    (hjoined : s.prepare joined = .ok (q ++ q')) (hne : q' ≠ []) (depth : Nat) :
    Option.Rel (fun r r' => ∃ V, Results V r r') (s.evalPieces depth text text')
      (s.eval depth joined) := by
  obtain ⟨N, -, hN, heval⟩ := eval_of_prepare hq depth
  obtain ⟨M, -, hM, hevalJoined⟩ := eval_of_prepare hjoined depth
  obtain ⟨hMq, hMq'⟩ := Expr.everyAll_append.1 hM
  have hforms : (s.adopt N q).1 = (Expr.placeAll s.given q).1 := rfl
  have hformsJoined : (s.adopt M (q ++ q')).1 = (Expr.placeAll s.given q).1 ++
      (Expr.placeAll (Expr.placeAll s.given q).2 q').1 :=
    congrArg Prod.fst (Expr.placeAll_append s.given q q')
  -- the first program, whose names are reserved in both sessions
  have hbeside : Beside W s s := ⟨h.fits, h.env, h.given⟩
  have hfirst := ((hbeside.adopt_left N q).adopt_right M (q ++ q')).program depth hN
    (fun _ hx => NameSet.mem_union.2 (.inr hx)) hMq (fun _ hx => NameSet.mem_union.2 (.inr hx))
    s.given
  rw [hevalJoined, hformsJoined, evalForms_append, evalPieces, heval, hforms]
  generalize hl : (s.adopt N q).2.evalForms depth .nothing (Expr.placeAll s.given q).1 = o
    at hfirst ⊢
  generalize (s.adopt M (q ++ q')).2.evalForms depth .nothing (Expr.placeAll s.given q).1 = o'
    at hfirst ⊢
  cases hfirst with
  | none => exact .none
  | @some o o' hfirst =>
    obtain ⟨r, u⟩ := o
    obtain ⟨r', u'⟩ := o'
    obtain ⟨V, hle, hbeside, hagree⟩ := hfirst
    cases hagree with
    | error he => exact .some ⟨V, V, .refl V, hbeside, .error he⟩
    | @ok v v' hv =>
      -- the second program, whose names only one session has reserved from the beginning
      obtain ⟨hsettings, hgiven⟩ := evalForms_fixed hl
      have hprepare : u.prepare text' = .ok q' := by
        rw [← hq', prepare, hsettings]
        rfl
      obtain ⟨N', -, hN', heval'⟩ := eval_of_prepare hprepare depth
      have hsecond := (hbeside.adopt_left N' q').program depth hN'
        (fun _ hx => NameSet.mem_union.2 (.inr hx)) hMq'
        (fun x hx => hle.right.reserved x (NameSet.mem_union.2 (.inr hx))) u.given
      have hplaced : (Expr.placeAll (Expr.placeAll s.given q).2 q').1 =
          (Expr.placeAll u.given q').1 := by
        rw [hgiven]
        rfl
      have hlast := evalForms_last (Expr.placeAll_ne_nil u.given hne) depth u' v' .nothing
      show Option.Rel _ (u.eval depth text') (u'.evalForms depth v' _)
      rw [heval', hplaced, hlast]
      exact rel_imp (fun _ _ hr => ⟨_, hr⟩) hsecond

theorem prepare_of_parse {text : String} {p : List Expr} (h : parseProgram text = .ok p) :
    s.prepare text = .ok (s.settings.prepare p) := by
  rw [prepare, h]
  rfl

/-- **Feeding a session in pieces is feeding it at once.**  Of two texts that can be parsed, neither
of them a wrapped program and the second not empty, a session that can come up is given one after
the other, the second only if the first does not fail; or it is given both at once, one below the
other.  Within every depth both ways end or neither does.  They give alpha-equivalent values, or
fail with errors of the same kind; and the environments that they leave bind the same names in the
same order, to alpha-equivalent values. -/
theorem eval_pieces (hs : Reachable s) {text text' : String} {p p' : List Expr}
    (hp : parseProgram text = .ok p) (hp' : parseProgram text' = .ok p') (hne : p' ≠ [])
    (hw : ¬ Wrapped text) (hw' : ¬ Wrapped text') (depth : Nat) :
    Option.Rel (fun r r' => Agree Value.AlphaEq r.1 r'.1 ∧
        List.Forall₂ (EntryRel Value.AlphaEq) r.2.env.bindings r'.2.env.bindings)
      (s.evalPieces depth text text') (s.eval depth (text ++ "\n" ++ text')) := by
  obtain ⟨W, hfit⟩ := hs.exists_fit
  have hjoined : s.prepare (text ++ "\n" ++ text') =
      .ok (s.settings.prepare p ++ s.settings.prepare p') := by
    rw [← Settings.prepare_append]
    exact prepare_of_parse (parseProgram_join hw hw' hp hp')
  have hpieces := hfit.pieces (prepare_of_parse hp) (prepare_of_parse hp') hjoined
    (Settings.prepare_ne_nil _ hne) depth
  exact rel_imp (fun _ _ ⟨_, hr⟩ => hr.alphaEq) hpieces

/-- The second text has a parameter with a name that the first makes the supply give, unless it is
reserved in time.  So one way draws a name with the number one, and the other way one with the
number two. -/
theorem eval_pieces_reserved_late :
    let s := start ⟨false, .construct⟩
    let text := "(define f (lambda (x) (lambda (y) x))) (define g (f 'a))"
    let text' := "(lambda (y__1) (g y__1))"
    Reachable s ∧ ¬ Wrapped text ∧ ¬ Wrapped text' ∧
      (s.evalPieces 1 text text').map (fun r => r.2.store.names.counter) = some 1 ∧
      (s.eval 1 (text ++ "\n" ++ text')).map (fun r => r.2.store.names.counter) = some 2 ∧
      Option.Rel (fun r r' => Agree Value.AlphaEq r.1 r'.1 ∧
          List.Forall₂ (EntryRel Value.AlphaEq) r.2.env.bindings r'.2.env.bindings)
        (s.evalPieces 1 text text') (s.eval 1 (text ++ "\n" ++ text')) := by
  intro s text text'
  have hs : Reachable s := .start _
  have hp : parseProgram text = .ok
      [.define "f" (.lambda ["x"] [.lambda ["y"] [.var "x"]]),
        .define "g" (.app (.var "f") [.quote (.symbol "a")])] := by
    unfold text
    rfl
  have hp' : parseProgram text' = .ok [.lambda ["y__1"] [.app (.var "g") [.var "y__1"]]] := by
    unfold text'
    rfl
  have hread : (SExpr.readText text).toOption.map List.length = some 2 := by
    unfold text
    rfl
  have hread' : ∃ args, SExpr.readText text' = .ok [.list (.symbol "lambda" :: args)] := by
    unfold text'
    exact ⟨_, rfl⟩
  have hw : ¬ Wrapped text := by
    rintro ⟨forms, h⟩
    rw [h] at hread
    cases hread
  have hw' : ¬ Wrapped text' := by
    rintro ⟨forms, h⟩
    obtain ⟨args, hread'⟩ := hread'
    simp [hread'] at h
  exact ⟨hs, hw, hw', by decide +kernel, by decide +kernel,
    eval_pieces hs hp hp' (by simp) hw hw' 1⟩

end Session

end Lambdict
