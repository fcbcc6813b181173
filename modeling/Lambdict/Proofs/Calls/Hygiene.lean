import Lambdict.Proofs.Calls.Draws
import Lambdict.Proofs.Expansion
import Lambdict.Proofs.FreeNames
import Lambdict.Proofs.Identifiers
import Lambdict.Proofs.Matching.Start
import Lambdict.Proofs.Parsed

/-!
# The hygiene of calls

Every closure that a session applies, and every argument it is applied to, has only reserved names
free at that moment.  So putting the arguments into the renamed body captures nothing, since the
parameters in there were just drawn, and what is drawn is not reserved.

Drawn names themselves are never reserved, and later texts may even reserve a name that was drawn
before.  What carries the argument is therefore not a property of single names.  It is that all that
a run holds matches itself in its `World` (`Call.Admitted`): free names are reserved, and parameters
are covered, reserved or not.  A run is a simulation of itself, so it keeps this.
-/

namespace Lambdict

/-- **A hygienic call.** -/
structure Call.Hygienic (c : Call) : Prop where
  /-- What is free in the closure is reserved. -/
  closure : ∀ x ∈ Expr.freeSeq c.params c.body, x ∈ c.names.reserved
  /-- What is free in an argument is reserved. -/
  args : ∀ v ∈ c.args, ∀ x ∈ v.free, x ∈ c.names.reserved
  /-- What is free in the literal of an argument is bound nowhere in the renamed body. -/
  literals : ∀ ls, Value.literals? c.args = .ok ls → ∀ l ∈ ls, ∀ x ∈ l.free [],
    x ∉ Expr.bindersAll (Expr.renameAll c.body c.names).1

/-- A call of a closure that matches itself, with arguments that match themselves. -/
def Call.Admitted (c : Call) : Prop :=
  ∃ W : World, W.left = c.names ∧ W.ClosureRel False c.params c.body c.params c.body ∧
    List.Forall₂ (Value.Matches (W.link False)) c.args c.args

namespace World

variable {W : World}

/-- Only reserved names are free in the body of a closure. -/
theorem ClosureRel.free_reserved {ps : List String} {b : List Expr}
    (h : W.ClosureRel False ps b ps b) : ∀ x ∈ Expr.freeSeq ps b, x ∈ W.left.reserved := by
  have hbound := (W.bounded_base []).bind ps ps
  rw [List.append_nil] at hbound
  exact h.2.free_reserved hbound

/-- The parameters in a renamed body were drawn. -/
theorem ClosureRel.binders_drawn {ps : List String} {b : List Expr}
    (h : W.ClosureRel False ps b ps b) : ∀ p ∈ Expr.bindersAll (Expr.renameAll b W.left).1,
      W.left.Drawn (Expr.renameAll b W.left).2 p := by
  obtain ⟨hp, hb⟩ := h
  have hrenamed := hb.rename ((W.served False).bind hp.2.1.covers hp.2.2.1.covers)
  intro p hmem
  obtain ⟨ps', qs', ⟨-, hdrawn, -⟩, hps⟩ := hrenamed.binders_params p hmem
  exact hdrawn.drawn p hps

/-- Only reserved names are free in the literals of arguments. -/
theorem literals_free_reserved {args : List Value}
    (h : List.Forall₂ (Value.Matches (W.link False)) args args) {ls : List Expr}
    (hls : Value.literals? args = .ok ls) : ∀ l ∈ ls, ∀ x ∈ l.free [], x ∈ W.left.reserved := by
  have hagree := literals?_agree h
  rw [hls] at hagree
  cases hagree with
  | ok hes => exact fun l hl => (List.forall₂_same.1 hes l hl).1.free_reserved (W.bounded_base [])

end World

/-- **Admitted calls are hygienic.** -/
theorem Call.Admitted.hygienic {c : Call} (h : c.Admitted) : c.Hygienic := by
  obtain ⟨names, ps, b, args⟩ := c
  obtain ⟨W, rfl, hclosure, hargs⟩ := h
  refine ⟨?_, ?_, ?_⟩
  · exact hclosure.free_reserved
  · exact fun v hv => (List.forall₂_same.1 hargs v hv).free_reserved
  · intro ls hls l hl x hx hmem
    exact (hclosure.binders_drawn x hmem).fresh (World.literals_free_reserved hargs hls l hl x hx)

/-! ## A run follows itself -/

namespace World

variable {α β : Type} {W : World} {P : World → α → Prop}

/-- Where an evaluation ends, the run is in a later world, and a value it gives is as `P` says. -/
def Reaches (P : World → α → Prop) (W : World) (x : Eval α) : Prop :=
  ∀ s, W.Fits s s → ∀ r t, x s = some (r, t) →
    ∃ V, W.Le V ∧ V.Fits t t ∧ ∀ a, r = .ok a → P V a

/-- An evaluation that follows itself reaches values that are related to themselves. -/
theorem Reaches.of_runs {R : World → α → α → Prop} {depth : Nat} {x : Nat → Eval α}
    (h : (matching False).Runs R W depth (x depth) x) :
    Reaches (fun V a => R V a a) W (x depth) := by
  intro s hs r t hr
  obtain ⟨k, r', t', V, hk, hr', hle, ht, hagree⟩ := (h s s hs).2 r t hr
  -- nothing is searched, so both runs have the same depth and are one
  obtain rfl := hk.resolve_right id
  obtain ⟨rfl, rfl⟩ := Prod.mk.inj (Option.some.inj (hr.symm.trans hr'))
  refine ⟨V, hle, ht, ?_⟩
  rintro a rfl
  cases hagree with
  | ok ha => exact ha

theorem reaches_newIdentity : Reaches (fun V i => V.same i i) W Eval.newIdentity :=
  .of_runs (x := fun _ => Eval.newIdentity)
    ((Simulation.Steps.newIdentity (S := matching False)).runs 0)

/-- All calls of an evaluation that begins in a world are admitted. -/
def Admits (W : World) (calls : Calls) : Prop :=
  ∀ s, W.Fits s s → ∀ c ∈ calls s, c.Admitted

theorem Admits.none : W.Admits .none :=
  fun _ _ _ hc => nomatch hc

/-- The calls of a sequence are admitted, each in the world that is reached. -/
theorem Admits.andThen {calls : Calls} {x : Eval α} {rest : α → Calls} (hc : W.Admits calls)
    (hx : Reaches P W x) (hrest : ∀ V a, W.Le V → P V a → V.Admits (rest a)) :
    W.Admits (calls.andThen x rest) := by
  intro s hs c hmem
  rcases List.mem_append.1 hmem with hmem | hmem
  · exact hc s hs c hmem
  · cases hxs : x s with
    | none =>
      rw [hxs] at hmem
      cases hmem
    | some o =>
      obtain ⟨_ | a, t⟩ := o
      · rw [hxs] at hmem
        cases hmem
      · obtain ⟨V, hle, ht, ha⟩ := hx s hs _ _ hxs
        rw [hxs] at hmem
        exact hrest V a hle (ha a rfl) t ht c hmem

/-- The world of a run that reserves more names. -/
def reserving (W : World) (names : NameSet) : World :=
  { W with left := W.left.reserve names, right := W.right.reserve names }

theorem le_reserving (W : World) (names : NameSet) : W.Le (W.reserving names) :=
  ⟨fun _ _ h => h, (W.left.reserves_reserve names).le, (W.right.reserves_reserve names).le⟩

end World

/-! ## Evaluation -/

/-- An expression that matches itself. -/
def Expr.Fit (W : World) (e : Expr) : Prop :=
  e.Matches (W.link False) (W.link False).base e

/-- A value that matches itself. -/
def Value.Fit (W : World) (v : Value) : Prop :=
  v.Matches (W.link False) v

theorem Value.forall₂_matches_iff {W : World} {vs : List Value} :
    List.Forall₂ (Value.Matches (W.link False)) vs vs ↔ ∀ v ∈ vs, v.Fit W :=
  List.forall₂_same

theorem Expr.forall₂_matches_iff {W : World} {es : List Expr} :
    List.Forall₂ (Expr.Matches (W.link False) (W.link False).base) es es ↔ ∀ e ∈ es, e.Fit W :=
  List.forall₂_same

/-- An environment whose values match themselves. -/
def Environment.Fit (W : World) (env : Environment) : Prop :=
  (matching False).EnvRel W env env

/-- Applying fit values at a depth performs admitted calls. -/
def CallsFit (depth : Nat) : Prop :=
  ∀ {W : World} {proc : Value} {args : List Value}, proc.Fit W → (∀ v ∈ args, v.Fit W) →
    W.Admits (proc.callsAt depth args)

namespace Expr

variable {W : World} {depth : Nat} {env : Environment}

/-- An expression that matches itself comes to a value that does. -/
theorem Fit.reaches {e : Expr} (he : e.Fit W) (henv : env.Fit W) :
    World.Reaches Value.Fit W (e.evalAt depth env) :=
  .of_runs (R := (matching False).value) (x := fun k => e.evalAt k env)
    (Simulation.evalAt_runs ((matching False).applies depth) e he henv)

/-- Expressions that all match themselves. -/
def FitAll (W : World) (es : List Expr) : Prop :=
  ∀ e ∈ es, e.Fit W

theorem Fit.mono {V : World} (h : W.Le V) {e : Expr} (he : e.Fit W) : e.Fit V :=
  (matching False).expr_mono h he

theorem FitAll.mono {V : World} (h : W.Le V) {es : List Expr} (hes : FitAll W es) : FitAll V es :=
  fun e he => (hes e he).mono h

theorem FitAll.of_matchesEach {es : List Expr}
    (h : MatchesEach (W.link False) (W.link False).base es es) : FitAll W es :=
  forall₂_matches_iff.1 (matchesEach_iff.1 h)

/-- Arguments that match themselves come to values that do. -/
theorem FitAll.reaches {es : List Expr} (hes : FitAll W es) (henv : env.Fit W) :
    World.Reaches (fun V vs => ∀ v ∈ vs, v.Fit V) W
      (evalEachWith (Value.applyAt depth) env es) := by
  have hruns := Simulation.evalEach_runs ((matching False).applies depth) es
    (forall₂_matches_iff.2 hes) henv
  have hreaches := World.Reaches.of_runs
    (x := fun k => evalEachWith (Value.applyAt k) env es) hruns
  intro s hs r t hr
  obtain ⟨V, hle, ht, ha⟩ := hreaches s hs r t hr
  exact ⟨V, hle, ht, fun vs hvs => Value.forall₂_matches_iff.1 (ha vs hvs)⟩

mutual

/-- **A fit expression performs admitted calls.** -/
theorem Fit.admits (hC : CallsFit depth) {W : World} {env : Environment} (henv : env.Fit W) :
    ∀ {e : Expr}, e.Fit W →
      W.Admits (e.callsWith (Value.applyAt depth) (Value.callsAt depth) env)
  | .cond t c a, .cond ht hc ha => by
    refine (Fit.admits hC henv ht).andThen (Fit.reaches ht henv) fun V v hV _ => ?_
    have henv' := Simulation.EnvRel.mono hV henv
    split
    · exact Fit.admits hC henv' (Fit.mono hV ha)
    · exact Fit.admits hC henv' (Fit.mono hV hc)
  | .app f es, .app _ hf hes => by
    refine (Fit.admits hC henv hf).andThen (Fit.reaches hf henv) fun V proc hV hproc => ?_
    have henv' := Simulation.EnvRel.mono hV henv
    have hes' := (FitAll.of_matchesEach hes).mono hV
    refine (FitAll.admits hC henv' hes').andThen (hes'.reaches henv') fun U args hU hargs => ?_
    exact hC ((matching False).value_mono hU hproc) hargs
  | .dict es, .dict _ _ hv => FitAll.admits_entries hC henv (.of_matchesEach hv)
  | .number _, _ | .boolean _, _ | .string _, _ | .var _, _ | .prim _, _ | .quote _, _
  | .lambda _ _, _ | .define _ _, _ => .none

/-- All calls that arguments perform are admitted. -/
theorem FitAll.admits (hC : CallsFit depth) {W : World} {env : Environment} (henv : env.Fit W) :
    ∀ {es : List Expr}, FitAll W es →
      W.Admits (callsEachWith (Value.applyAt depth) (Value.callsAt depth) env es)
  | [], _ => .none
  | e :: es, h => by
    obtain ⟨he, hes⟩ := List.forall_mem_cons.1 h
    refine (Fit.admits hC henv he).andThen (he.reaches henv) fun V _ hV _ => ?_
    exact FitAll.admits hC (Simulation.EnvRel.mono hV henv) (FitAll.mono hV hes)

theorem FitAll.admits_entries (hC : CallsFit depth) {W : World} {env : Environment}
    (henv : env.Fit W) : ∀ {es : List (String × Expr)}, FitAll W (es.map Prod.snd) →
      W.Admits (callsEntriesWith (Value.applyAt depth) (Value.callsAt depth) env es)
  | [], _ => .none
  | (_, e) :: es, h => by
    obtain ⟨he, hes⟩ := List.forall_mem_cons.1 h
    refine (Fit.admits hC henv he).andThen (he.reaches henv) fun V _ hV _ => ?_
    refine World.Admits.none.andThen World.reaches_newIdentity fun U _ hU _ => ?_
    have hW := hV.trans hU
    exact FitAll.admits_entries hC (Simulation.EnvRel.mono hW henv) (FitAll.mono hW hes)

end

/-- **A fit sequence performs admitted calls.** -/
theorem FitAll.admits_seq (hC : CallsFit depth) {es : List Expr} (henv : env.Fit W)
    (hes : FitAll W es) :
    W.Admits (callsSeqWith (Value.applyAt depth) (Value.callsAt depth) env es) := by
  induction es generalizing W env with
  | nil => exact .none
  | cons e es ih =>
    obtain ⟨he, hrest⟩ := List.forall_mem_cons.1 hes
    by_cases hd : ∃ x d, e = .define x d
    · obtain ⟨x, d, rfl⟩ := hd
      cases he with
      | define _ hd =>
        refine (Fit.admits hC henv hd).andThen (Fit.reaches hd henv) fun V v hV hv => ?_
        exact ih ((Simulation.EnvRel.mono hV henv).extend x hv) (FitAll.mono hV hrest)
    · rw [callsSeqWith_cons _ _ _ fun x d hx => hd ⟨x, d, hx⟩]
      refine (Fit.admits hC henv he).andThen (he.reaches henv) fun V _ hV _ => ?_
      exact ih (Simulation.EnvRel.mono hV henv) (FitAll.mono hV hrest)

end Expr

namespace Value

theorem callsAt_zero (proc : Value) (args : List Value) : proc.callsAt 0 args = .none := by
  cases proc <;> rfl

/-- **Applying fit values performs admitted calls**, at every depth. -/
theorem callsFit (depth : Nat) : CallsFit depth := by
  induction depth with
  | zero =>
    intro W proc args _ _
    rw [callsAt_zero]
    exact .none
  | succ depth ih =>
    intro W proc args hproc hargs
    by_cases hc : ∃ i ps b, proc = .closure i ps b
    · obtain ⟨i, ps, b, rfl⟩ := hc
      have hargs' := forall₂_matches_iff.2 hargs
      cases hproc with
      | plain h => cases h
      | closure hi hp hb =>
        intro s hs
        -- the call is admitted in the world of the moment, and its body goes on in a later one
        have hcall : (Call.mk s.names ps b args).Admitted := ⟨W, hs.left.symm, ⟨hp, hb⟩, hargs'⟩
        by_cases hlen : args.length = ps.length
        · rw [callsAt_closure_succ depth i hlen (Store.admits_of_unlimited hs.unlimited.1 b)]
          have hagree := World.call ⟨hp, hb⟩ hs hargs' hlen
          refine List.forall_mem_cons.2 ⟨hcall, ?_⟩
          cases hls : (literals? args).mapError Error.condition with
          | error e => exact fun _ h => nomatch h
          | ok ls =>
            rw [hls] at hagree
            cases hagree with
            | ok hes =>
              exact Expr.FitAll.admits_seq ih Simulation.EnvRel.empty
                (Expr.forall₂_matches_iff.1 hes) _ (hs.afterRenaming b b)
        · rw [callsAt_closure_arity depth i hlen]
          exact List.forall_mem_singleton.2 hcall
    · rw [callsAt_of_not_closure fun i ps b hp => hc ⟨i, ps, b, hp⟩]
      exact .none

end Value

/-! ## Sessions -/

namespace Session

variable {W : World} {s : Session} {depth : Nat}

/-- A session that is in a world: all that it has defined matches itself. -/
structure Fit (W : World) (s : Session) : Prop where
  fits : W.Fits s.store s.store
  env : s.env.Fit W
  given : ∀ n, W.same (.given n) (.given n)

theorem fit_start (settings : Settings) : (start settings).Fit (.start ∅ ∅) :=
  ⟨World.fits_start ∅ ∅, Simulation.EnvRel.empty, fun n => ⟨n, rfl, rfl⟩⟩

theorem fit_formBody {e : Expr} (he : e.Fit W) : e.formBody.Fit W := by
  cases e with
  | define x d =>
    cases he with
    | define _ hd => exact hd
  | _ => exact he

theorem fit_formEnv {env : Environment} (henv : env.Fit W) {v : Value} (hv : v.Fit W) (e : Expr) :
    (e.formEnv env v).Fit W := by
  cases e with
  | define x d => exact Simulation.EnvRel.extend henv x hv
  | _ => exact henv

/-- What one form leaves of a session that fits. -/
theorem Fit.form (h : s.Fit W) {e : Expr} (he : e.Fit W) {r : Except Error Value} {t : Store}
    (hr : e.formBody.evalAt depth s.env s.store = some (r, t)) :
    ∃ V, W.Le V ∧ Fit V { s with store := t } ∧
      ∀ v, r = .ok v → Fit V { s with store := t, env := e.formEnv s.env v } := by
  obtain ⟨V, hle, ht, hv⟩ := (fit_formBody he).reaches h.env s.store h.fits r t hr
  have henv : s.env.Fit V := Simulation.EnvRel.mono hle h.env
  have hgiven (n : Nat) := hle.same _ _ (h.given n)
  exact ⟨V, hle, ⟨ht, henv, hgiven⟩, fun v hok => ⟨ht, fit_formEnv henv (hv v hok) e, hgiven⟩⟩

/-- **Forms that fit perform admitted calls**, and leave a session that fits. -/
theorem Fit.forms (h : s.Fit W) {es : List Expr} (hes : Expr.FitAll W es) (last : Value) :
    (∀ c ∈ s.formCalls depth es, c.Admitted) ∧
      ∀ r s', s.evalForms depth last es = some (r, s') → ∃ V, s'.Fit V := by
  induction es generalizing W s last with
  | nil =>
    refine ⟨by rintro _ ⟨⟩, ?_⟩
    rintro _ _ ⟨⟩
    exact ⟨W, h⟩
  | cons e es ih =>
    obtain ⟨he, hes⟩ := List.forall_mem_cons.1 hes
    have hcalls : ∀ c ∈ e.formBody.callsAt depth s.env s.store, c.Admitted :=
      Expr.Fit.admits (Value.callsFit depth) h.env (fit_formBody he) s.store h.fits
    rw [formCalls_cons, evalForms_cons]
    cases hr : e.formBody.evalAt depth s.env s.store with
    | none =>
      refine ⟨by simpa using hcalls, ?_⟩
      rintro _ _ ⟨⟩
    | some o =>
      obtain ⟨V, hle, herror, hok⟩ := h.form he hr
      obtain ⟨_ | v, t⟩ := o
      · refine ⟨by simpa using hcalls, ?_⟩
        rintro _ _ ⟨⟩
        exact ⟨V, herror⟩
      · obtain ⟨hrest, hend⟩ := ih (hok v rfl) (Expr.FitAll.mono hle hes) (e.formValue v)
        exact ⟨fun c hc => (List.mem_append.1 hc).elim (hcalls c) (hrest c), hend⟩

/-! ### Texts -/

/-- A session runs programs that are sound. -/
theorem prepare_sound {text : String} {program : List Expr} (h : s.prepare text = .ok program) :
    Expr.EveryAll Expr.NodeSound program := by
  unfold prepare at h
  cases hp : parseProgram text with
  | error e =>
    rw [hp] at h
    cases h
  | ok p =>
    rw [hp] at h
    cases h
    unfold Settings.prepare
    split
    · exact Expr.EveryAll.desugar _ (parseProgram_sound hp)
    · exact parseProgram_sound hp

/-- **A text is taken up with its names reserved**: its program fits, and the session goes on
fitting. -/
theorem Fit.adopt (h : s.Fit W) {program : List Expr} {names : NameSet}
    (hp : Expr.EveryAll Expr.NodeSound program) (hn : collectNames program = .ok names) :
    (s.adopt names program).2.Fit (W.reserving names) ∧
      Expr.FitAll (W.reserving names) (s.adopt names program).1 := by
  have hle := W.le_reserving names
  refine ⟨⟨⟨?_, ?_, h.fits.older, h.fits.one_to_one, h.fits.unlimited⟩, h.env.mono hle,
    h.given⟩, ?_⟩
  · exact congrArg (NameSupply.reserve · names) h.fits.left
  · exact congrArg (NameSupply.reserve · names) h.fits.right
  · obtain ⟨names', hn', hready⟩ := exists_ready hp
    obtain rfl := Except.ok.inj (hn.symm.trans hn')
    -- the names of the program are among those reserved now
    have hready' : Expr.EveryAll (Expr.NodeReady (W.reserving names).left.reserved) program :=
      Expr.EveryAll.imp (fun e he => ⟨he.1, Expr.NodeNames.imp
        (fun x hx => NameSet.mem_union.2 (.inr hx)) e he.2⟩) hready
    have hsides : (W.reserving names).left = (W.reserving names).right :=
      congrArg (NameSupply.reserve · names) (h.fits.left.symm.trans h.fits.right)
    have hseq := Expr.MatchesSeq.refl_place_of_ready (W := W.reserving names) h.given hready'
      (hsides ▸ hready') s.given
    exact Expr.forall₂_matches_iff.1 (hseq.forall₂ (World.names_of_defines False _))

/-- **A text keeps a session in a world, and all its calls are admitted.** -/
theorem Fit.text (h : s.Fit W) (depth : Nat) (text : String) :
    (∀ c ∈ s.textCalls depth text, c.Admitted) ∧
      ∀ r s', s.eval depth text = some (r, s') → ∃ V, s'.Fit V := by
  rcases s.text_cases depth text with ⟨hcalls, e, heval⟩ | ⟨program, names, hp, hn, hcalls, heval⟩
  · rw [hcalls, heval]
    refine ⟨by rintro _ ⟨⟩, ?_⟩
    rintro _ _ ⟨⟩
    exact ⟨W, h⟩
  · rw [hcalls, heval]
    obtain ⟨hfit, hplaced⟩ := h.adopt (prepare_sound hp) hn
    exact hfit.forms hplaced .nothing

/-- All calls of several texts are admitted. -/
theorem Fit.calls_admitted (h : s.Fit W) (texts : List String) :
    ∀ c ∈ s.calls depth texts, c.Admitted := by
  induction texts generalizing W s with
  | nil => exact fun _ hc => nomatch hc
  | cons text texts ih =>
    obtain ⟨hcalls, hend⟩ := h.text depth text
    intro c hc
    rw [calls] at hc
    rcases List.mem_append.1 hc with hc | hc
    · exact hcalls c hc
    · cases hr : s.eval depth text with
      | none =>
        rw [hr] at hc
        cases hc
      | some o =>
        obtain ⟨V, hfit⟩ := hend o.1 o.2 hr
        rw [hr] at hc
        exact ih hfit c hc

/-- **Every call of a session is hygienic, and no name is drawn twice.**  This holds for all
settings and all texts, whether they succeed or fail.  The calls that are listed are all that are
performed (`Expr.evalWith_applyWhere`), and whatever the supply gives in the session it gives to
them. -/
theorem calls_hygienic (settings : Settings) (depth : Nat) (texts : List String) :
    let calls := (start settings).calls depth texts
    (∀ c ∈ calls, c.Hygienic) ∧
      (∀ s, (start settings).evalTexts depth texts = some s →
        (start settings).store.names.Draws calls s.store.names) ∧
      (calls.flatMap Call.drawn).Nodup := by
  obtain ⟨n, hn, hend⟩ := (start settings).draws_calls depth rfl texts
  refine ⟨fun c hc => ?_, fun s hs => ?_, hn.drawnAll.nodup⟩
  · exact ((fit_start settings).calls_admitted texts c hc).hygienic
  · rw [hend s hs]
    exact hn

/-- The second text itself has a name that the first one made the supply give. -/
example : (((start ⟨false, .construct⟩).calls 1
    ["(define f (lambda (x) (lambda (y) x))) (f 'a)", "(f (lambda (y__1) 'b))"]).flatMap
      Call.drawn) = ["y__1", "y__2"] := by
  decide +kernel

end Session

end Lambdict
