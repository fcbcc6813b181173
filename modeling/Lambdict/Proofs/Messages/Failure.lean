import Lambdict.Proofs.Messages.Wording
import Lambdict.Proofs.Simulation.Eval

/-!
# Failures under simulation

Where one run follows another, it fails when the other fails, with an error that is alike.  Here it
is shown that the two errors also say the same (`Simulation.evalSeqAt_fails`).  This takes another
walk through the evaluation, in which the first one (`Simulation.evalSeqAt_follows`) says where the
second run is when the first fails: at the same step, or in the search that stands for it.
-/

namespace Lambdict

open Eval (Settles)

namespace Simulation

variable {S : Simulation} {P : String → Prop} {α β γ δ : Type} {R : S.World → α → β → Prop}
  {W : S.World} {depth : Nat}

/-- **Two runs tell the same**: if both fail, their errors say the same. -/
def Tells (S : Simulation) (P : String → Prop) (W : S.World) (x : Eval α) (y : Nat → Eval β) :
    Prop :=
  ∀ s s', S.fits W s s' → ∀ e t, x s = some (.error e, t) →
    ∀ k e' t', y k s' = some (.error e', t') → SaysSame P e.message e'.message

/-- The second run comes to one end only, at whatever depth. -/
theorem Runs.settled {x : Eval α} {y : Nat → Eval β} (hx : S.Runs R W depth x y) (hy : Settles y)
    {s s' t t' : Store} (hs : S.fits W s s') {r : Except Error α} {r' : Except Error β}
    (hxs : x s = some (r, t)) {k : Nat} (hys : y k s' = some (r', t')) :
    ∃ W', S.le W W' ∧ S.fits W' t t' ∧ Agree (R W') r r' := by
  obtain ⟨j, r'', t'', W', -, hyj, hW, ht, hr⟩ := (hx s s' hs).2 r t hxs
  have hj := hy (Nat.le_max_left j k) _ _ hyj
  have hk := hy (Nat.le_max_right j k) _ _ hys
  obtain ⟨rfl, rfl⟩ := Prod.mk.inj (Option.some.inj (hj.symm.trans hk))
  exact ⟨W', hW, ht, hr⟩

theorem Tells.bind {x : Eval α} {y : Nat → Eval β} {f : α → Eval γ} {g : Nat → β → Eval δ}
    (hx : S.Runs R W depth x y) (hy : Settles y) (ht : S.Tells P W x y)
    (hf : ∀ W' a b, S.le W W' → R W' a b → S.Tells P W' (f a) fun k => g k b) :
    S.Tells P W (x >>= f) fun k => y k >>= g k := by
  intro s s' hs e t hxe k e' t' hye
  simp only [Eval.bind_apply] at hxe hye
  cases hxs : x s with
  | none =>
    rw [hxs] at hxe
    cases hxe
  | some o =>
    cases hys : y k s' with
    | none =>
      rw [hys] at hye
      cases hye
    | some o' =>
      -- both have got this far, so they failed or came to related results
      obtain ⟨r, u⟩ := o
      obtain ⟨r', u'⟩ := o'
      obtain ⟨W', hW, hu, hr⟩ := hx.settled hy hs hxs hys
      rw [hxs] at hxe
      rw [hys] at hye
      cases hr with
      | error =>
        cases hxe
        cases hye
        exact ht s s' hs _ _ hxs k _ _ hys
      | ok hab => exact hf W' _ _ hW hab u u' hu e t hxe k e' t' hye

/-- A run that does not fail tells whatever another does. -/
theorem Tells.of_failsOnly {x : Eval α} (h : x.FailsOnly fun _ => False) (y : Nat → Eval β) :
    S.Tells P W x y :=
  fun s _ _ e t hx => (h s e t hx).elim

theorem Tells.pure (a : α) (y : Nat → Eval β) : S.Tells P W (pure a) y :=
  .of_failsOnly (.pure a) y

theorem Tells.newIdentity (y : Nat → Eval β) : S.Tells P W Eval.newIdentity y :=
  .of_failsOnly .newIdentity y

theorem Tells.raise (c : Condition) :
    S.Tells P W (Eval.raise c : Eval α) fun _ => (Eval.raise c : Eval β) := by
  rintro s s' - e t ⟨⟩ k e' t' ⟨⟩
  rfl

/-- The second run may make an object first. -/
theorem Tells.right_newIdentity (h : S.searches) {x : Eval α} {g : Nat → Identity → Eval β}
    (hx : ∀ id, S.Tells P W x fun k => g k id) :
    S.Tells P W x fun k => Eval.newIdentity >>= g k := by
  intro s s' hs
  exact hx _ s s'.next (S.next_right h hs)

/-- The first run may make an object first. -/
theorem Tells.left_newIdentity (h : S.searches) {f : Identity → Eval α} {y : Nat → Eval β}
    (hf : ∀ id, S.Tells P W (f id) y) : S.Tells P W (Eval.newIdentity >>= f) y := by
  intro s s' hs
  exact hf _ s.next s' (S.next_left h hs)

/-- The second run may make a list of pairs first. -/
theorem Tells.right_newList (h : S.searches) {x : Eval α} {g : Nat → Value → Eval β}
    {ws : List Value} {es : List (String × Value)} (hws : ws.mapM Value.entry? = some es)
    (hx : ∀ v, v.Spells es → S.Tells P W x fun k => g k v) :
    S.Tells P W x fun k => Primitive.newList ws >>= g k := by
  intro s s' hs
  obtain ⟨v, n, hv, hspells⟩ := newList_spells hws s'
  simp only [Eval.bind_apply, hv]
  exact hx v hspells s _ (fits_made h hs n)

/-- Two evaluations that keep step and can only fail in ways that say the same. -/
theorem Steps.tells {R : S.World → α → β → Prop} {E E' : Error → Prop} {x : Eval α} {y : Eval β}
    (h : S.Steps R W x y) (hx : x.FailsOnly E) (hy : y.FailsOnly E')
    (hsay : ∀ {e e'}, E e → E' e' → e.Alike e' → SaysSame P e.message e'.message) :
    S.Tells P W x fun _ => y := by
  intro s s' hs e t hxe k e' t' hye
  obtain ⟨r, r', u, u', W', hxs, hys, -, -, hr⟩ := h s s' hs
  obtain ⟨rfl, -⟩ := Prod.mk.inj (Option.some.inj (hxs.symm.trans hxe))
  obtain ⟨rfl, -⟩ := Prod.mk.inj (Option.some.inj (hys.symm.trans hye))
  cases hr with
  | error halike => exact hsay (hx s e t hxe) (hy s' e' t' hye) halike

/-! ## Dictionaries -/

/-- The errors of a dictionary that is applied. -/
inductive LookupFault (args : Nat) : Error → Prop
  | arguments : LookupFault args (.condition (.dictionaryArguments args))
  | key (k : String) : LookupFault args (.condition (.keyNotFound k))

theorem LookupFault.saysSame {n : Nat} {e e' : Error} (h : LookupFault n e)
    (h' : LookupFault n e') (halike : e.Alike e') : SaysSame P e.message e'.message := by
  cases halike with
  | abort => rfl
  | condition hc =>
    cases h with
    | arguments =>
      cases h' with
      | arguments => rfl
      | key => exact absurd hc.kind (by simp [Condition.kind])
    | key k =>
      cases h' with
      | key k' =>
        obtain rfl : k = k' := Option.some.inj hc.key
        rfl
      | arguments => exact absurd hc.kind (by simp [Condition.kind])

theorem lookupResult_fault {es : List (String × Value)} {key : Value} {e : Error}
    (h : lookupResult es key = .error e) : LookupFault 1 e := by
  unfold lookupResult at h
  split at h
  · split at h
    · cases h
    · cases h
      exact .key _
  · cases h
    exact .arguments

theorem applyAt_dict_fault (depth : Nat) (i : Identity) (es : List (String × Value))
    (args : List Value) : ((Value.dict i es).applyAt depth args).FailsOnly
      (LookupFault args.length) := by
  by_cases h : ∃ k, args = [.symbol k]
  · obtain ⟨k, rfl⟩ := h
    intro s e t hs
    rw [Value.applyAt_dict] at hs
    exact lookupResult_fault (Prod.mk.inj (Option.some.inj hs)).1
  · rw [applyAt_dict_of_ne depth i es fun k hk => h ⟨k, hk⟩]
    exact .fail .arguments

/-- **The search fails as the dictionary does.** -/
theorem scanner_tells {a b c a' b' c' : String} (hn : ScannerNames a b c)
    (hn' : ScannerNames a' b' c') (i j l m : Identity) {es es' : List (String × Value)}
    {entries key key' : Value} (hes : List.Forall₂ (EntryRel (S.value W)) es es')
    (hspells : entries.Spells es') (hk : S.value W key key') :
    S.Tells P W ((Value.dict m es).applyAt depth [key]) fun k =>
      (Desugar.scannerClosure i a b c).applyAt k
        [Desugar.scannerClosure j a' b' c', entries, .pair l key' .empty] := by
  intro s s' _ e t hx k e' t' hy
  rw [Value.applyAt_dict] at hx
  obtain ⟨n, hscan⟩ := Desugar.applyAt_scanner hn hn' i j l key' hspells
    (Nat.lt_of_lt_of_le (Nat.lt_succ_self es'.length) (Nat.le_max_left _ k)) s'
  have hsettled := Value.settles_applyAt _ _ (Nat.le_max_right (es'.length + 1) k) _ _ hy
  have hr := (Prod.mk.inj (Option.some.inj hx)).1
  have hr' := (Prod.mk.inj (Option.some.inj (hscan.symm.trans hsettled))).1
  have hagree := lookupResult_agree hes hk
  rw [hr, hr'] at hagree
  cases hagree with
  | error halike => exact (lookupResult_fault hr).saysSame (lookupResult_fault hr') halike

/-! ## Expressions -/

/-- Related values tell the same when they are applied, from a depth on. -/
def AppliesTelling (S : Simulation) (P : String → Prop) (depth : Nat) : Prop :=
  ∀ {W : S.World} {proc proc' : Value} {args args' : List Value}, S.value W proc proc' →
    List.Forall₂ (S.value W) args args' →
    S.Tells P W (proc.applyAt depth args) fun k => proc'.applyAt k args'

theorem lookup_tells {env env' : Environment} (h : S.EnvRel W env env') (x : String) :
    S.Tells P W (Eval.ofCondition (env.lookup x)) fun _ => Eval.ofCondition (env'.lookup x) := by
  unfold Environment.lookup Environment.lookup?
  rcases lookup_eq h x with ⟨h₁, h₂⟩ | ⟨v, v', h₁, h₂, -⟩
  · rw [h₁, h₂]
    exact .raise _
  · rw [h₁]
    exact .pure _ _

theorem newDict_tells (es : List (String × Value)) (y : Nat → Eval β) :
    S.Tells P W (Primitive.newDict es) y :=
  .of_failsOnly (.bind .newIdentity fun _ => .pure _) y

mutual

/-- **Related expressions tell the same.** -/
theorem evalAt_tells (hT : S.AppliesTelling P depth) : ∀ (e : Expr) {W : S.World}
    {env env' : Environment} {e' : Expr}, S.expr W e e' → S.EnvRel W env env' →
    S.Tells P W (e.evalAt depth env) fun k => e'.evalAt k env'
  | .number _, _, _, _, _, _, _ | .boolean _, _, _, _, _, _, _ | .string _, _, _, _, _, _, _
  | .prim _, _, _, _, _, _, _ | .quote _, _, _, _, _, _, _ => .pure _ _
  | .lambda _ _, _, _, _, _, _, _ => .of_failsOnly (.bind .newIdentity fun _ => .pure _) _
  | .var x, W, env, env', e', he, henv => by
    cases S.expr_cases he
    exact lookup_tells henv x
  | .define _ _, W, env, env', e', he, henv => by
    cases S.expr_cases he
    exact .raise _
  | .foreign _, W, env, env', e', he, henv => by
    cases S.expr_cases he
    exact .raise _
  | .cond t c a, W, env, env', e', he, henv => by
    cases S.expr_cases he with
    | @cond _ t' _ c' _ a' ht hc ha =>
      refine Tells.bind (evalAt_runs (S.applies depth) t ht henv) (Expr.settles_evalAt env' t')
        (evalAt_tells hT t ht henv) fun W₁ v v' hW hv => ?_
      rw [isFalse_eq hv]
      split
      · exact evalAt_tells hT a (S.expr_mono hW ha) (henv.mono hW)
      · exact evalAt_tells hT c (S.expr_mono hW hc) (henv.mono hW)
  | .app f es, W, env, env', e', he, henv => by
    cases S.expr_cases he with
    | @app _ f' _ es' hf hes =>
      refine Tells.bind (evalAt_runs (S.applies depth) f hf henv) (Expr.settles_evalAt env' f')
        (evalAt_tells hT f hf henv) fun W₁ proc proc' hW₁ hproc => ?_
      exact Tells.bind (evalEach_runs (S.applies depth) es (expr_mono_all hW₁ hes) (henv.mono hW₁))
        (Expr.settles_evalEach env' es')
        (evalEach_tells hT es (expr_mono_all hW₁ hes) (henv.mono hW₁))
        fun W₂ args args' hW₂ hargs => hT (S.value_mono hW₂ hproc) hargs
    | @search es calls key key' a b c a' b' c' hs hes hk hn hn' =>
      simp only [evalAt_app_dict, evalAt_searchBy]
      refine Tells.right_newIdentity hs fun i => Tells.right_newIdentity hs fun j => ?_
      refine Tells.bind (evalPairs_runs (S.applies depth) es hes henv)
        (Expr.settles_evalEach env' calls) (evalPairs_tells hT es hes henv)
        fun W₁ entries ws hW₁ hws => ?_
      obtain ⟨es', hmap, hentries⟩ := PairRel.mapM hws
      refine Tells.left_newIdentity hs fun m => Tells.right_newList hs hmap fun spelt hspelt => ?_
      refine Tells.bind
        (evalAt_runs (S.applies depth) key (S.expr_mono hW₁ hk) (henv.mono hW₁))
        (Expr.settles_evalAt env' key') (evalAt_tells hT key (S.expr_mono hW₁ hk) (henv.mono hW₁))
        fun W₂ v v' hW₂ hv => Tells.right_newIdentity hs fun l => ?_
      exact scanner_tells hn hn' i j l m (entries_mono hW₂ hentries) hspelt hv
  | .dict es, W, env, env', e', he, henv => by
    cases S.expr_cases he with
    | @dict _ es' hes =>
      exact Tells.bind (evalEntries_runs (S.applies depth) es hes henv)
        (Expr.settles_evalEntries env' es') (evalEntries_tells hT es hes henv)
        fun W₁ entries entries' _ _ => newDict_tells entries _
    | @construct _ calls hes =>
      simp only [evalAt_call]
      exact Tells.bind (evalPairs_runs (S.applies depth) es hes henv)
        (Expr.settles_evalEach env' calls) (evalPairs_tells hT es hes henv)
        fun W₁ entries ws _ _ => newDict_tells entries _

theorem evalEach_tells (hT : S.AppliesTelling P depth) : ∀ (es : List Expr) {W : S.World}
    {env env' : Environment} {es' : List Expr}, List.Forall₂ (S.expr W) es es' →
    S.EnvRel W env env' →
    S.Tells P W (Expr.evalEachWith (Value.applyAt depth) env es)
      fun k => Expr.evalEachWith (Value.applyAt k) env' es'
  | [], _, _, _, _, .nil, _ => .pure _ _
  | e :: es, W, env, env', e' :: es', .cons he hes, henv => by
    refine Tells.bind (evalAt_runs (S.applies depth) e he henv) (Expr.settles_evalAt env' e')
      (evalAt_tells hT e he henv) fun W₁ v v' hW₁ hv => ?_
    exact Tells.bind (evalEach_runs (S.applies depth) es (expr_mono_all hW₁ hes) (henv.mono hW₁))
      (Expr.settles_evalEach env' es')
      (evalEach_tells hT es (expr_mono_all hW₁ hes) (henv.mono hW₁)) fun _ _ _ _ _ => .pure _ _

theorem evalEntries_tells (hT : S.AppliesTelling P depth) : ∀ (es : List (String × Expr))
    {W : S.World} {env env' : Environment} {es' : List (String × Expr)},
    List.Forall₂ (EntryRel (S.expr W)) es es' → S.EnvRel W env env' →
    S.Tells P W (Expr.evalEntriesWith (Value.applyAt depth) env es)
      fun k => Expr.evalEntriesWith (Value.applyAt k) env' es'
  | [], _, _, _, _, .nil, _ => .pure _ _
  | (k, e) :: es, W, env, env', (k', e') :: es', .cons he hes, henv => by
    obtain ⟨rfl, he⟩ : k = k' ∧ S.expr W e e' := he
    refine Tells.bind (evalAt_runs (S.applies depth) e he henv) (Expr.settles_evalAt env' e')
      (evalAt_tells hT e he henv) fun W₁ v v' hW₁ hv => ?_
    refine Tells.bind (Steps.newIdentity.runs depth) (Settles.const _) (.newIdentity _)
      fun W₂ _ _ hW₂ _ => ?_
    have hW := S.le_trans hW₁ hW₂
    exact Tells.bind
      (evalEntries_runs (S.applies depth) es (entryRel_expr_mono hW hes) (henv.mono hW))
      (Expr.settles_evalEntries env' es')
      (evalEntries_tells hT es (entryRel_expr_mono hW hes) (henv.mono hW))
      fun _ _ _ _ _ => .pure _ _

theorem evalPairs_tells (hT : S.AppliesTelling P depth) : ∀ (es : List (String × Expr))
    {W : S.World} {env env' : Environment} {calls : List Expr},
    List.Forall₂ (PairCallRel (S.expr W)) es calls → S.EnvRel W env env' →
    S.Tells P W (Expr.evalEntriesWith (Value.applyAt depth) env es)
      fun k => Expr.evalEachWith (Value.applyAt k) env' calls
  | [], _, _, _, _, .nil, _ => .pure _ _
  | (k, e) :: es, W, env, env', call :: calls, .cons he hes, henv => by
    obtain ⟨e', rfl, he⟩ := he
    simp only [evalEach_pairCall]
    refine Tells.bind (evalAt_runs (S.applies depth) e he henv) (Expr.settles_evalAt env' e')
      (evalAt_tells hT e he henv) fun W₁ v v' hW₁ hv => ?_
    refine Tells.bind (Steps.newIdentity.runs depth) (Settles.const _) (.newIdentity _)
      fun W₂ _ i hW₂ _ => ?_
    have hW := S.le_trans hW₁ hW₂
    exact Tells.bind
      (evalPairs_runs (S.applies depth) es (pairCallRel_mono hW hes) (henv.mono hW))
      (Expr.settles_evalEach env' calls)
      (evalPairs_tells hT es (pairCallRel_mono hW hes) (henv.mono hW)) fun _ _ _ _ _ => .pure _ _

end

/-- **Related sequences tell the same.** -/
theorem evalSeqAt_telling (hT : S.AppliesTelling P depth) {es es' : List Expr}
    {env env' : Environment} (hes : List.Forall₂ (S.expr W) es es') (henv : S.EnvRel W env env') :
    S.Tells P W (Expr.evalSeqAt depth env es) fun k => Expr.evalSeqAt k env' es' := by
  induction es generalizing W es' env env' with
  | nil =>
    cases hes
    exact .raise _
  | cons e es ih =>
    obtain _ | ⟨he, hes⟩ := hes
    rename_i e' es'
    have hnil : es = [] ↔ es' = [] := by
      rw [← List.length_eq_zero_iff, ← List.length_eq_zero_iff, hes.length_eq]
    unfold Expr.evalSeqAt
    by_cases hempty : es = []
    · obtain rfl := hempty
      obtain rfl := hnil.1 rfl
      rcases expr_definition he with ⟨hd, hd'⟩ | ⟨x, d, d', rfl, rfl, hd⟩
      · simp only [evalSeqWith_single _ _ hd, evalSeqWith_single _ _ hd']
        exact evalAt_tells hT e he henv
      · exact Tells.bind (evalAt_runs (S.applies depth) d hd henv) (Expr.settles_evalAt env' d')
          (evalAt_tells hT d hd henv) fun _ _ _ _ _ => .raise _
    · have hempty' : es' ≠ [] := fun h => hempty (hnil.2 h)
      rcases expr_definition he with ⟨hd, hd'⟩ | ⟨x, d, d', rfl, rfl, hd⟩
      · simp only [evalSeqWith_cons _ _ hd hempty, evalSeqWith_cons _ _ hd' hempty']
        exact Tells.bind (evalAt_runs (S.applies depth) e he henv) (Expr.settles_evalAt env' e')
          (evalAt_tells hT e he henv) fun W₁ _ _ hW _ => ih (expr_mono_all hW hes) (henv.mono hW)
      · simp only [evalSeqWith_define _ _ x _ hempty, evalSeqWith_define _ _ x _ hempty']
        exact Tells.bind (evalAt_runs (S.applies depth) d hd henv) (Expr.settles_evalAt env' d')
          (evalAt_tells hT d hd henv)
          fun W₁ v v' hW hv => ih (expr_mono_all hW hes) ((henv.mono hW).extend x hv)

/-! ## Application -/

theorem closure_tells (hS : S.Wording P) (hT : S.AppliesTelling P depth) {i j : Identity}
    {ps ps' : List String} {b b' : List Expr} {args args' : List Value}
    (hc : S.closure W ps b ps' b') (hargs : List.Forall₂ (S.value W) args args') :
    S.Tells P W ((Value.closure i ps b).applyAt (depth + 1) args)
      fun k => (Value.closure j ps' b').applyAt k args' := by
  intro s s' hs e t hx k e' t' hy
  by_cases h : args.length = ps.length
  · have h' : args'.length = ps'.length := by
      rw [← hargs.length_eq, h, S.arity_eq hc]
    obtain ⟨W₁, -, hs₁, hls⟩ := S.call hc hs hargs h
    cases k with
    | zero => cases hy
    | succ k =>
      by_cases hb : s.Admits b
      case neg =>
        rw [applyAt_closure_not_admitted depth i h hb] at hx
        have hb' : ¬ s'.Admits b' := fun hb' => hb ((S.admits_iff hc hs).2 hb')
        replace hy := (applyAt_closure_not_admitted k j h' hb').symm.trans hy
        cases hx
        cases hy
        exact .refl _
      rw [applyAt_closure_succ depth i h hb] at hx
      replace hy := (applyAt_closure_succ k j h' ((S.admits_iff hc hs).1 hb)).symm.trans hy
      cases hl : Value.literals? args <;> cases hl' : Value.literals? args' <;>
        rw [hl, hl'] at hls <;> rw [hl] at hx <;> rw [hl'] at hy <;> cases hls
      · cases hx
        cases hy
        exact hS.literals hargs hl hl'
      · next hes => exact evalSeqAt_telling hT hes EnvRel.empty _ _ hs₁ e t hx k e' t' hy
  · have h' : args'.length ≠ ps'.length := by
      rwa [← hargs.length_eq, ← S.arity_eq hc]
    rw [applyAt_closure_arity depth i h] at hx
    cases k with
    | zero => cases hy
    | succ k =>
      replace hy := (congrFun (applyAt_closure_arity k j h') s').symm.trans hy
      cases hx
      cases hy
      rw [hargs.length_eq]
      exact hS.arity hc args'.length

variable [Grows P]

/-- What cannot be applied is shown in the same words. -/
theorem notAProcedure_tells (hS : S.Wording P) {v v' : Value} (h : S.value W v v') :
    S.Tells P W
      (do let shown ← Eval.ofAbort v.render; Eval.raise (.notAProcedure shown) : Eval Value)
      fun _ => (do let shown ← Eval.ofAbort v'.render; Eval.raise (.notAProcedure shown) :
        Eval Value) := by
  unfold Value.render guardText
  rw [S.writable_eq h]
  by_cases hw : v'.writable = true
  · rw [if_pos hw, if_pos hw]
    rintro s s' - e t ⟨⟩ k e' t' ⟨⟩
    exact (SaysSame.refl "Bad procedure ").append (hS.textIn false v false h)
  · rw [if_neg hw, if_neg hw]
    rintro s s' - e t ⟨⟩ k e' t' ⟨⟩
    rfl

/-- Applying anything but a closure needs no depth. -/
theorem applyAt_tells (hS : S.Wording P) {proc proc' : Value} {args args' : List Value}
    (hproc : S.value W proc proc') (hargs : List.Forall₂ (S.value W) args args')
    (hc : ∀ i ps b, proc ≠ .closure i ps b) :
    S.Tells P W (proc.applyAt depth args) fun k => proc'.applyAt k args' := by
  cases S.value_iff.1 hproc with
  | plain hp =>
    cases proc with
    | prim p =>
      simp only [Value.applyAt_prim]
      exact (apply_steps p hargs).tells (p.apply_refusal args) (p.apply_refusal args')
        fun h h' halike => h.saysSame hS h' halike hargs
    | pair | closure | dict | code | sequence => simp [Value.identity?] at hp
    | _ =>
      unfold Value.applyAt
      exact notAProcedure_tells hS hproc
  | closure => exact absurd rfl (hc _ _ _)
  | @dict i j es es' _ hes =>
    have hdepth (k : Nat) : (Value.dict j es').applyAt k args' =
        (Value.dict j es').applyAt depth args' := by
      cases k <;> cases depth <;> rfl
    simp only [hdepth]
    refine (dict_apply_steps hes hargs depth depth).tells (applyAt_dict_fault depth i es args)
      (applyAt_dict_fault depth j es' args') fun h h' halike => ?_
    rw [← hargs.length_eq] at h'
    exact h.saysSame h' halike
  | pair | code | sequence =>
    unfold Value.applyAt
    exact notAProcedure_tells hS hproc

/-- **Related values tell the same when they are applied**, at every depth. -/
theorem appliesTelling (hS : S.Wording P) (depth : Nat) : S.AppliesTelling P depth := by
  induction depth with
  | zero =>
    intro W proc proc' args args' hproc hargs
    by_cases hc : ∃ i ps b, proc = .closure i ps b
    · obtain ⟨i, ps, b, rfl⟩ := hc
      rintro s s' - e t ⟨⟩
    · exact applyAt_tells hS hproc hargs fun i ps b h => hc ⟨i, ps, b, h⟩
  | succ depth ih =>
    intro W proc proc' args args' hproc hargs
    by_cases hc : ∃ i ps b, proc = .closure i ps b
    · obtain ⟨i, ps, b, rfl⟩ := hc
      cases S.value_iff.1 hproc with
      | plain hp => simp [Value.identity?] at hp
      | closure _ hc => exact closure_tells hS ih hc hargs
    · exact applyAt_tells hS hproc hargs fun i ps b h => hc ⟨i, ps, b, h⟩

/-- **The failure of a run**: where a sequence fails, a related one fails with an error that is
alike and says the same. -/
theorem evalSeqAt_fails (hS : S.Wording P) {es es' : List Expr}
    (hes : List.Forall₂ (S.expr W) es es') {env env' : Environment} (henv : S.EnvRel W env env')
    {s s' t : Store} (hs : S.fits W s s') {e : Error}
    (h : Expr.evalSeqAt depth env es s = some (.error e, t)) :
    ∃ k e' t', Expr.evalSeqAt k env' es' s' = some (.error e', t') ∧ e.Alike e' ∧
      SaysSame P e.message e'.message := by
  obtain ⟨k, r', t', W', -, hk, -, -, hr⟩ := (S.evalSeqAt_follows hes henv depth s s' hs).2 _ _ h
  cases hr with
  | @error _ e' halike =>
    exact ⟨k, e', t', hk, halike,
      evalSeqAt_telling (appliesTelling hS depth) hes henv s s' hs e t h k e' t' hk⟩

end Simulation

end Lambdict
