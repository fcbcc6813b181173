import Lambdict.Proofs.Search
import Lambdict.Proofs.Simulation.Primitive

/-!
# Evaluation under simulation

Related expressions evaluate alike.  Evaluating an expression is a recursion on the expression, so
that is how the proof goes (`Simulation.evalAt_runs`), given that related values are applied alike.
Applying a closure evaluates a new sequence at a smaller depth, so the gap is closed by induction on
the depth (`Simulation.applies`).

The two runs part ways at one place only: a dictionary literal that the first applies to a key, and
that the second searches (`Simulation.search_runs`).
-/

namespace Lambdict

open Eval (Settles)

namespace Simulation

variable {S : Simulation} {W : S.World} {depth : Nat}

/-! ## Environments -/

theorem EnvRel.mono {W' : S.World} (hW : S.le W W') {env env' : Environment}
    (h : S.EnvRel W env env') : S.EnvRel W' env env' :=
  entries_mono hW h

theorem EnvRel.empty : S.EnvRel W .empty .empty := .nil

theorem EnvRel.extend {env env' : Environment} (h : S.EnvRel W env env') (x : String)
    {v v' : Value} (hv : S.value W v v') : S.EnvRel W (env.extend x v) (env'.extend x v') :=
  .cons ⟨rfl, hv⟩ h

theorem lookup_steps {env env' : Environment} (h : S.EnvRel W env env') (x : String) :
    S.Steps S.value W (Eval.ofCondition (env.lookup x)) (Eval.ofCondition (env'.lookup x)) := by
  unfold Environment.lookup Environment.lookup?
  rcases lookup_eq h x with ⟨h₁, h₂⟩ | ⟨v, v', h₁, h₂, hv⟩
  · rw [h₁, h₂]
    exact Steps.raise (.refl _)
  · rw [h₁, h₂]
    exact Steps.pure hv

/-! ## Entries as pairs -/

/-- An entry and the pair that stands for it. -/
def PairRel (W : S.World) (p : String × Value) (w : Value) : Prop :=
  ∃ v, w.entry? = some (p.1, v) ∧ S.value W p.2 v

theorem PairRel.mapM {es : List (String × Value)} {ws : List Value}
    (h : List.Forall₂ (PairRel W) es ws) :
    ∃ es', ws.mapM Value.entry? = some es' ∧ List.Forall₂ (EntryRel (S.value W)) es es' := by
  induction h with
  | nil => exact ⟨[], rfl, .nil⟩
  | @cons p w es ws hp _ ih =>
    obtain ⟨v, hw, hv⟩ := hp
    obtain ⟨es', hes', hrel⟩ := ih
    exact ⟨(p.1, v) :: es', by rw [List.mapM_cons, hw, hes']; rfl, .cons ⟨rfl, hv⟩ hrel⟩

/-- A new list of pairs spells out their entries. -/
theorem newList_spells {ws : List Value} {es : List (String × Value)}
    (h : ws.mapM Value.entry? = some es) (s : Store) :
    ∃ v n, Primitive.newList ws s = some (.ok v, { s with made := s.made + n }) ∧
      v.Spells es := by
  induction Value.mapM_entry?_eq_some_iff.1 h with
  | nil => exact ⟨.empty, 0, rfl, .nil⟩
  | @cons w p ws es hw hws ih =>
    obtain ⟨v, n, hv, hspells⟩ := ih (Value.mapM_entry?_eq_some_iff.2 hws)
    obtain ⟨i, rfl⟩ := hw
    refine ⟨.pair (.made (s.made + n)) (.pair i (.symbol p.1) p.2) v, n + 1, ?_, .cons hspells⟩
    simp only [Primitive.newList, Eval.bind_apply, hv, Primitive.newPair, Eval.newIdentity]
    rfl

/-! ## The forms that calls expand to -/

theorem evalAt_pairCall (depth : Nat) (k : String) (e : Expr) (env : Environment) :
    (Desugar.pairCall k e).evalAt depth env =
      (do let v ← e.evalAt depth env; Primitive.newPair (.symbol k) v) := by
  simp [Desugar.pairCall, Desugar.call, Expr.evalAt, Expr.evalWith, Expr.evalEachWith,
    Value.applyAt_prim, Primitive.apply, Primitive.binary]

theorem evalEach_pairCall (depth : Nat) (k : String) (e : Expr) (calls : List Expr)
    (env : Environment) :
    Expr.evalEachWith (Value.applyAt depth) env (Desugar.pairCall k e :: calls) =
      (do
        let v ← e.evalAt depth env
        let i ← Eval.newIdentity
        let ws ← Expr.evalEachWith (Value.applyAt depth) env calls
        return .pair i (.symbol k) v :: ws) := by
  have hcall := evalAt_pairCall depth k e env
  simp only [Expr.evalAt] at hcall
  simp [Expr.evalEachWith, hcall, Primitive.newPair, Expr.evalAt]

theorem evalAt_call (p : Primitive) (es : List Expr) (env : Environment) :
    (Desugar.call p es).evalAt depth env =
      (do let vs ← Expr.evalEachWith (Value.applyAt depth) env es; p.apply vs) := by
  simp [Desugar.call, Expr.evalAt, Expr.evalWith, Value.applyAt_prim]

theorem evalAt_searchBy (a b c a' b' c' : String) (calls : List Expr) (key : Expr)
    (env : Environment) :
    (Desugar.searchBy (Desugar.scannerOf a b c) (Desugar.scannerOf a' b' c') calls key).evalAt
        depth env =
      (do
        let i ← Eval.newIdentity
        let j ← Eval.newIdentity
        let ws ← Expr.evalEachWith (Value.applyAt depth) env calls
        let entries ← Primitive.newList ws
        let v ← key.evalAt depth env
        let l ← Eval.newIdentity
        (Desugar.scannerClosure i a b c).applyAt depth
          [Desugar.scannerClosure j a' b' c', entries, .pair l v .empty]) := by
  simp [Desugar.searchBy, Desugar.scannerOf, Desugar.scannerClosure, Desugar.call, Expr.evalAt,
    Expr.evalWith, Expr.evalEachWith, Value.applyAt_prim, Primitive.apply, Primitive.newList,
    Primitive.newPair]

theorem evalAt_app_dict (es : List (String × Expr)) (key : Expr) (env : Environment) :
    (Expr.app (.dict es) [key]).evalAt depth env =
      (do
        let entries ← Expr.evalEntriesWith (Value.applyAt depth) env es
        let i ← Eval.newIdentity
        let v ← key.evalAt depth env
        (Value.dict i entries).applyAt depth [v]) := by
  simp [Expr.evalAt, Expr.evalWith, Expr.evalEachWith, Primitive.newDict]

/-! ## Searching and looking up -/

theorem fits_made (h : S.searches) {s s' : Store} (hs : S.fits W s s') (n : Nat) :
    S.fits W s { s' with made := s'.made + n } := by
  induction n with
  | zero => exact hs
  | succ n ih => exact S.next_right h ih

theorem lookupResult_agree {es es' : List (String × Value)} {key key' : Value}
    (hes : List.Forall₂ (EntryRel (S.value W)) es es') (hk : S.value W key key') :
    Agree (S.value W) (lookupResult es key) (lookupResult es' key') := by
  have hother : Agree (S.value W) (.error (.condition (.dictionaryArguments 1)))
    (.error (.condition (.dictionaryArguments 1))) := .error (.refl _)
  cases S.value_iff.1 hk with
  | plain =>
    cases key with
    | symbol k =>
      simp only [lookupResult]
      rcases lookup_eq hes k with ⟨h₁, h₂⟩ | ⟨v, v', h₁, h₂, hv⟩
      · rw [h₁, h₂]
        exact .error (.refl _)
      · rw [h₁, h₂]
        exact .ok hv
    | _ => exact hother
  | _ => exact hother

/-- The second run may make a list of pairs first. -/
theorem Runs.right_newList (h : S.searches) {α β : Type} {R : S.World → α → β → Prop} {x : Eval α}
    {g : Nat → Value → Eval β} {ws : List Value} {es : List (String × Value)}
    (hws : ws.mapM Value.entry? = some es)
    (hx : ∀ v, v.Spells es → S.Runs R W depth x fun k => g k v) :
    S.Runs R W depth x fun k => Primitive.newList ws >>= g k := by
  intro s s' hs
  obtain ⟨v, n, hv, hspells⟩ := newList_spells hws s'
  simp only [Eval.bind_apply, hv]
  exact hx v hspells s _ (fits_made h hs n)

/-- **The search does what the dictionary does.** -/
theorem scanner_runs (h : S.searches) {a b c a' b' c' : String} (hn : ScannerNames a b c)
    (hn' : ScannerNames a' b' c') (i j l m : Identity) {es es' : List (String × Value)}
    {entries key key' : Value} (hes : List.Forall₂ (EntryRel (S.value W)) es es')
    (hspells : entries.Spells es') (hk : S.value W key key') :
    S.Runs S.value W depth ((Value.dict m es).applyAt depth [key]) fun k =>
      (Desugar.scannerClosure i a b c).applyAt k
        [Desugar.scannerClosure j a' b' c', entries, .pair l key' .empty] := by
  intro s s' hs
  rw [Value.applyAt_dict]
  refine ⟨fun hnone => absurd hnone (by simp), fun r t hr => ?_⟩
  obtain ⟨rfl, rfl⟩ := Prod.mk.inj (Option.some.inj hr)
  obtain ⟨n, hscan⟩ := Desugar.applyAt_scanner hn hn' i j l key' hspells
    (Nat.lt_succ_self es'.length) s'
  exact ⟨_, _, _, W, .inr h, hscan, S.le_refl W, fits_made h hs n, lookupResult_agree hes hk⟩

/-! ## Expressions -/

/-- Related values are applied alike, from a depth on. -/
def Applies (S : Simulation) (depth : Nat) : Prop :=
  ∀ {W : S.World} {proc proc' : Value} {args args' : List Value}, S.value W proc proc' →
    List.Forall₂ (S.value W) args args' →
    S.Runs S.value W depth (proc.applyAt depth args) fun k => proc'.applyAt k args'

theorem expr_mono_all {W' : S.World} (hW : S.le W W') {es es' : List Expr}
    (h : List.Forall₂ (S.expr W) es es') : List.Forall₂ (S.expr W') es es' :=
  h.imp fun _ _ => S.expr_mono hW

theorem entryRel_expr_mono {W' : S.World} (hW : S.le W W') {es es' : List (String × Expr)}
    (h : List.Forall₂ (EntryRel (S.expr W)) es es') :
    List.Forall₂ (EntryRel (S.expr W')) es es' :=
  h.imp fun _ _ he => ⟨he.1, S.expr_mono hW he.2⟩

theorem pairCallRel_mono {W' : S.World} (hW : S.le W W') {es : List (String × Expr)}
    {calls : List Expr} (h : List.Forall₂ (PairCallRel (S.expr W)) es calls) :
    List.Forall₂ (PairCallRel (S.expr W')) es calls :=
  h.imp fun _ _ ⟨e, he, hrel⟩ => ⟨e, he, S.expr_mono hW hrel⟩

theorem app_runs (hA : S.Applies depth) {env env' : Environment} {f f' : Expr}
    {es es' : List Expr}
    (hf : S.Runs S.value W depth (f.evalAt depth env) fun k => f'.evalAt k env')
    (hes : ∀ {W'}, S.le W W' → S.Runs (fun W => List.Forall₂ (S.value W)) W' depth
      (Expr.evalEachWith (Value.applyAt depth) env es)
      fun k => Expr.evalEachWith (Value.applyAt k) env' es') :
    S.Runs S.value W depth ((Expr.app f es).evalAt depth env)
      fun k => (Expr.app f' es').evalAt k env' := by
  refine Runs.bind hf (Expr.settles_evalAt env' f')
    (fun proc => (Expr.settles_evalEach env' es').bind fun args =>
      Value.settles_applyAt proc args) fun W₁ proc proc' hW₁ hproc => ?_
  exact Runs.bind (hes hW₁) (Expr.settles_evalEach env' es')
    (fun args => Value.settles_applyAt proc' args)
    fun W₂ args args' hW₂ hargs => hA (S.value_mono hW₂ hproc) hargs

/-- A dictionary made of entries, and one made of pairs by the primitive. -/
theorem dict_of_pairs_runs {es : List (String × Value)} {ws : List Value}
    (h : List.Forall₂ (PairRel W) es ws) :
    S.Runs S.value W depth (Primitive.newDict es) fun _ => Primitive.apply .dict ws := by
  obtain ⟨es', hws, hes⟩ := PairRel.mapM h
  simp only [Primitive.apply, hws]
  exact (newDict_steps hes).runs depth

/-- **A search in place of a lookup.** -/
theorem search_runs (h : S.searches) {env env' : Environment} {es : List (String × Expr)}
    {calls : List Expr} {key key' : Expr} {a b c a' b' c' : String} (hn : ScannerNames a b c)
    (hn' : ScannerNames a' b' c')
    (hes : S.Runs (fun W => List.Forall₂ (PairRel W)) W depth
      (Expr.evalEntriesWith (Value.applyAt depth) env es)
      fun k => Expr.evalEachWith (Value.applyAt k) env' calls)
    (hk : ∀ {W'}, S.le W W' → S.Runs S.value W' depth (key.evalAt depth env)
      fun k => key'.evalAt k env') :
    S.Runs S.value W depth ((Expr.app (.dict es) [key]).evalAt depth env) fun k =>
      (Desugar.searchBy (Desugar.scannerOf a b c) (Desugar.scannerOf a' b' c') calls key').evalAt
        k env' := by
  simp only [evalAt_app_dict, evalAt_searchBy]
  refine Runs.right_newIdentity h fun i => Runs.right_newIdentity h fun j => ?_
  -- whatever the later steps settle on, they do so for every value of the earlier ones
  have hlast : ∀ entries v l, Settles fun k => (Desugar.scannerClosure i a b c).applyAt k
      [Desugar.scannerClosure j a' b' c', entries, .pair l v .empty] :=
    fun _ _ _ => Value.settles_applyAt _ _
  have hbox : ∀ entries v, Settles fun k => (do
      let l ← Eval.newIdentity
      (Desugar.scannerClosure i a b c).applyAt k
        [Desugar.scannerClosure j a' b' c', entries, .pair l v .empty]) :=
    fun entries v => (Settles.const _).bind fun l => hlast entries v l
  refine Runs.bind hes (Expr.settles_evalEach env' calls)
    (fun ws => (Settles.const _).bind fun entries =>
      (Expr.settles_evalAt env' key').bind fun v => hbox entries v)
    fun W₁ entries ws hW₁ hws => ?_
  obtain ⟨es', hmap, hentries⟩ := PairRel.mapM hws
  refine Runs.left_newIdentity h fun m => Runs.right_newList h hmap fun spelt hspelt => ?_
  refine Runs.bind (hk hW₁) (Expr.settles_evalAt env' key') (fun v => hbox spelt v)
    fun W₂ v v' hW₂ hv => Runs.right_newIdentity h fun l => ?_
  exact scanner_runs h hn hn' i j l m (entries_mono hW₂ hentries) hspelt hv

mutual

/-- **Related expressions evaluate alike.** -/
theorem evalAt_runs (hA : S.Applies depth) : ∀ (e : Expr) {W : S.World} {env env' : Environment}
    {e' : Expr}, S.expr W e e' → S.EnvRel W env env' →
    S.Runs S.value W depth (e.evalAt depth env) fun k => e'.evalAt k env'
  | .number n, W, env, env', e', he, henv => by
    cases S.expr_cases he
    exact (Steps.pure (value_plain rfl)).runs depth
  | .boolean b, W, env, env', e', he, henv => by
    cases S.expr_cases he
    exact (Steps.pure (value_plain rfl)).runs depth
  | .string s, W, env, env', e', he, henv => by
    cases S.expr_cases he
    exact (Steps.pure (value_plain rfl)).runs depth
  | .prim p, W, env, env', e', he, henv => by
    cases S.expr_cases he
    exact (Steps.pure (value_plain rfl)).runs depth
  | .quote d, W, env, env', e', he, henv => by
    cases S.expr_cases he with
    | quote hd => exact (Steps.pure hd).runs depth
  | .var x, W, env, env', e', he, henv => by
    cases S.expr_cases he
    exact (lookup_steps henv x).runs depth
  | .lambda ps b, W, env, env', e', he, henv => by
    cases S.expr_cases he with
    | lambda hc =>
      exact (Steps.newIdentity.bind fun W₁ i j hW hi => Steps.pure
        (S.value_iff.2 (.closure hi (S.closure_mono hW hc)))).runs depth
  | .define x e, W, env, env', e', he, henv => by
    cases S.expr_cases he
    exact (Steps.raise (.refl _)).runs depth
  | .foreign v, W, env, env', e', he, henv => by
    cases S.expr_cases he
    exact (Steps.raise (.refl _)).runs depth
  | .cond t c a, W, env, env', e', he, henv => by
    cases S.expr_cases he with
    | @cond _ t' _ c' _ a' ht hc ha =>
      refine Runs.bind (evalAt_runs hA t ht henv) (Expr.settles_evalAt env' t') (fun v => ?_)
        fun W₁ v v' hW hv => ?_
      · split
        · exact Expr.settles_evalAt env' a'
        · exact Expr.settles_evalAt env' c'
      · rw [isFalse_eq hv]
        split
        · exact evalAt_runs hA a (S.expr_mono hW ha) (henv.mono hW)
        · exact evalAt_runs hA c (S.expr_mono hW hc) (henv.mono hW)
  | .app f es, W, env, env', e', he, henv => by
    cases S.expr_cases he with
    | @app _ f' _ es' hf hes =>
      exact app_runs hA (evalAt_runs hA f hf henv) fun hW =>
        evalEach_runs hA es (expr_mono_all hW hes) (henv.mono hW)
    | @search es calls key key' a b c a' b' c' hs hes hk hn hn' =>
      exact search_runs hs hn hn' (evalPairs_runs hA es hes henv) fun hW =>
        evalAt_runs hA key (S.expr_mono hW hk) (henv.mono hW)
  | .dict es, W, env, env', e', he, henv => by
    cases S.expr_cases he with
    | @dict _ es' hes =>
      exact Runs.bind (evalEntries_runs hA es hes henv) (Expr.settles_evalEntries env' es')
        (fun _ => Settles.const _) fun W₁ entries entries' _ hentries =>
          (newDict_steps hentries).runs depth
    | @construct _ calls hes =>
      simp only [evalAt_call]
      exact Runs.bind (evalPairs_runs hA es hes henv) (Expr.settles_evalEach env' calls)
        (fun _ => Settles.const _) fun W₁ entries ws _ hws => dict_of_pairs_runs hws

theorem evalEach_runs (hA : S.Applies depth) : ∀ (es : List Expr) {W : S.World}
    {env env' : Environment} {es' : List Expr}, List.Forall₂ (S.expr W) es es' →
    S.EnvRel W env env' →
    S.Runs (fun W => List.Forall₂ (S.value W)) W depth
      (Expr.evalEachWith (Value.applyAt depth) env es)
      fun k => Expr.evalEachWith (Value.applyAt k) env' es'
  | [], W, env, env', _, .nil, henv => (Steps.pure .nil).runs depth
  | e :: es, W, env, env', e' :: es', .cons he hes, henv => by
    refine Runs.bind (evalAt_runs hA e he henv) (Expr.settles_evalAt env' e')
      (fun v => (Expr.settles_evalEach env' es').bind fun vs => Settles.const _)
      fun W₁ v v' hW₁ hv => ?_
    exact Runs.bind (evalEach_runs hA es (expr_mono_all hW₁ hes) (henv.mono hW₁))
      (Expr.settles_evalEach env' es') (fun _ => Settles.const _)
      fun W₂ vs vs' hW₂ hvs => (Steps.pure (.cons (S.value_mono hW₂ hv) hvs)).runs depth

theorem evalEntries_runs (hA : S.Applies depth) : ∀ (es : List (String × Expr)) {W : S.World}
    {env env' : Environment} {es' : List (String × Expr)},
    List.Forall₂ (EntryRel (S.expr W)) es es' → S.EnvRel W env env' →
    S.Runs (fun W => List.Forall₂ (EntryRel (S.value W))) W depth
      (Expr.evalEntriesWith (Value.applyAt depth) env es)
      fun k => Expr.evalEntriesWith (Value.applyAt k) env' es'
  | [], W, env, env', _, .nil, henv => (Steps.pure .nil).runs depth
  | (k, e) :: es, W, env, env', (k', e') :: es', .cons he hes, henv => by
    obtain ⟨rfl, he⟩ : k = k' ∧ S.expr W e e' := he
    refine Runs.bind (evalAt_runs hA e he henv) (Expr.settles_evalAt env' e')
      (fun v => (Settles.const _).bind fun _ =>
        (Expr.settles_evalEntries env' es').bind fun vs => Settles.const _)
      fun W₁ v v' hW₁ hv => ?_
    refine Runs.bind (Steps.newIdentity.runs depth) (Settles.const _)
      (fun _ => (Expr.settles_evalEntries env' es').bind fun vs => Settles.const _)
      fun W₂ _ _ hW₂ _ => ?_
    have hW := S.le_trans hW₁ hW₂
    exact Runs.bind (evalEntries_runs hA es (entryRel_expr_mono hW hes) (henv.mono hW))
      (Expr.settles_evalEntries env' es') (fun _ => Settles.const _)
      fun W₃ vs vs' hW₃ hvs =>
        (Steps.pure (.cons ⟨rfl, S.value_mono (S.le_trans hW₂ hW₃) hv⟩ hvs)).runs depth

theorem evalPairs_runs (hA : S.Applies depth) : ∀ (es : List (String × Expr)) {W : S.World}
    {env env' : Environment} {calls : List Expr},
    List.Forall₂ (PairCallRel (S.expr W)) es calls → S.EnvRel W env env' →
    S.Runs (fun W => List.Forall₂ (PairRel W)) W depth
      (Expr.evalEntriesWith (Value.applyAt depth) env es)
      fun k => Expr.evalEachWith (Value.applyAt k) env' calls
  | [], W, env, env', _, .nil, henv => (Steps.pure .nil).runs depth
  | (k, e) :: es, W, env, env', call :: calls, .cons he hes, henv => by
    obtain ⟨e', rfl, he⟩ := he
    simp only [evalEach_pairCall]
    refine Runs.bind (evalAt_runs hA e he henv) (Expr.settles_evalAt env' e')
      (fun v => (Settles.const _).bind fun _ =>
        (Expr.settles_evalEach env' calls).bind fun vs => Settles.const _)
      fun W₁ v v' hW₁ hv => ?_
    refine Runs.bind (Steps.newIdentity.runs depth) (Settles.const _)
      (fun _ => (Expr.settles_evalEach env' calls).bind fun vs => Settles.const _)
      fun W₂ _ i hW₂ _ => ?_
    have hW := S.le_trans hW₁ hW₂
    exact Runs.bind (evalPairs_runs hA es (pairCallRel_mono hW hes) (henv.mono hW))
      (Expr.settles_evalEach env' calls) (fun _ => Settles.const _)
      fun W₃ vs ws hW₃ hvs => (Steps.pure
        (.cons ⟨v', rfl, S.value_mono (S.le_trans hW₂ hW₃) hv⟩ hvs)).runs depth

end

/-! ## Sequences -/

theorem evalSeqWith_define (A : Applier) (env : Environment) (x : String) (e : Expr)
    {es : List Expr} (h : es ≠ []) :
    Expr.evalSeqWith A env (.define x e :: es) =
      (do let v ← e.evalWith A env; Expr.evalSeqWith A (env.extend x v) es) := by
  cases es with
  | nil => exact absurd rfl h
  | cons => rfl

theorem evalSeqWith_single (A : Applier) (env : Environment) {e : Expr}
    (he : e.isDefinition = false) : Expr.evalSeqWith A env [e] = e.evalWith A env := by
  cases e <;> first | rfl | simp [Expr.isDefinition] at he

theorem evalSeqWith_cons (A : Applier) (env : Environment) {e : Expr}
    (he : e.isDefinition = false) {es : List Expr} (h : es ≠ []) :
    Expr.evalSeqWith A env (e :: es) =
      (do let _ ← e.evalWith A env; Expr.evalSeqWith A env es) := by
  cases es with
  | nil => exact absurd rfl h
  | cons => cases e <;> first | rfl | simp [Expr.isDefinition] at he

/-- A definition corresponds to a definition of the same name, and only to that. -/
theorem expr_definition {e e' : Expr} (h : S.expr W e e') :
    (e.isDefinition = false ∧ e'.isDefinition = false) ∨
      ∃ x d d', e = .define x d ∧ e' = .define x d' ∧ S.expr W d d' := by
  cases S.expr_cases h with
  | define x hd => exact .inr ⟨x, _, _, rfl, rfl, hd⟩
  | _ => exact .inl ⟨rfl, rfl⟩

/-- **Related sequences evaluate alike.** -/
theorem evalSeqAt_runs (hA : S.Applies depth) {es es' : List Expr} {env env' : Environment}
    (hes : List.Forall₂ (S.expr W) es es') (henv : S.EnvRel W env env') :
    S.Runs S.value W depth (Expr.evalSeqAt depth env es) fun k => Expr.evalSeqAt k env' es' := by
  induction es generalizing W es' env env' with
  | nil =>
    cases hes
    exact (Steps.raise (.refl _)).runs depth
  | cons e es ih =>
    obtain _ | ⟨he, hes⟩ := hes
    rename_i e' es'
    -- the last element counts differently, and is the last on both sides
    have hnil : es = [] ↔ es' = [] := by
      rw [← List.length_eq_zero_iff, ← List.length_eq_zero_iff, hes.length_eq]
    unfold Expr.evalSeqAt
    by_cases hempty : es = []
    · obtain rfl := hempty
      obtain rfl := hnil.1 rfl
      rcases expr_definition he with ⟨hd, hd'⟩ | ⟨x, d, d', rfl, rfl, hd⟩
      · simp only [evalSeqWith_single _ _ hd, evalSeqWith_single _ _ hd']
        exact evalAt_runs hA e he henv
      · exact Runs.bind (evalAt_runs hA d hd henv) (Expr.settles_evalAt env' d')
          (fun _ => Settles.const _) fun W₁ _ _ _ _ => (Steps.raise (.refl _)).runs depth
    · have hempty' : es' ≠ [] := fun h => hempty (hnil.2 h)
      rcases expr_definition he with ⟨hd, hd'⟩ | ⟨x, d, d', rfl, rfl, hd⟩
      · simp only [evalSeqWith_cons _ _ hd hempty, evalSeqWith_cons _ _ hd' hempty']
        exact Runs.bind (evalAt_runs hA e he henv) (Expr.settles_evalAt env' e')
          (fun _ => Expr.settles_evalSeqAt env' es')
          fun W₁ _ _ hW _ => ih (expr_mono_all hW hes) (henv.mono hW)
      · simp only [evalSeqWith_define _ _ x _ hempty, evalSeqWith_define _ _ x _ hempty']
        exact Runs.bind (evalAt_runs hA d hd henv) (Expr.settles_evalAt env' d')
          (fun v => Expr.settles_evalSeqAt (env'.extend x v) es')
          fun W₁ v v' hW hv => ih (expr_mono_all hW hes) ((henv.mono hW).extend x hv)

/-! ## Application -/

/-- What cannot be applied: it is shown on both sides, or too long a number is in it on both
sides. -/
theorem notAProcedure_steps {v v' : Value} (h : S.value W v v') :
    S.Steps S.value W (do let shown ← Eval.ofAbort v.render; Eval.raise (.notAProcedure shown))
      (do let shown ← Eval.ofAbort v'.render; Eval.raise (.notAProcedure shown)) := by
  unfold Value.render guardText
  rw [S.writable_eq h]
  by_cases hw : v'.writable = true
  · rw [if_pos hw, if_pos hw]
    exact Steps.raise ⟨rfl, rfl, rfl⟩
  · rw [if_neg hw, if_neg hw]
    exact Steps.fail (.abort _)

theorem applyAt_dict_of_ne (depth : Nat) (i : Identity) (es : List (String × Value))
    {args : List Value} (h : ∀ k, args ≠ [.symbol k]) :
    (Value.dict i es).applyAt depth args = Eval.raise (.dictionaryArguments args.length) := by
  unfold Value.applyAt
  split
  · exact absurd rfl (h _)
  · rfl

theorem dict_apply_steps {i j : Identity} {es es' : List (String × Value)}
    {args args' : List Value} (hes : List.Forall₂ (EntryRel (S.value W)) es es')
    (hargs : List.Forall₂ (S.value W) args args') (depth depth' : Nat) :
    S.Steps S.value W ((Value.dict i es).applyAt depth args)
      ((Value.dict j es').applyAt depth' args') := by
  have hother (h : ∀ k, args ≠ [.symbol k]) (h' : ∀ k, args' ≠ [.symbol k]) :
      S.Steps S.value W ((Value.dict i es).applyAt depth args)
        ((Value.dict j es').applyAt depth' args') := by
    rw [applyAt_dict_of_ne depth i es h, applyAt_dict_of_ne depth' j es' h', hargs.length_eq]
    exact Steps.raise (.refl _)
  by_cases h : ∃ k, args = [.symbol k]
  · obtain ⟨k, rfl⟩ := h
    obtain _ | ⟨hk, _ | _⟩ := hargs
    obtain rfl := eq_of_isAtom hk rfl
    intro s s' hs
    exact ⟨_, _, _, _, W, Value.applyAt_dict _ _ _ _ _, Value.applyAt_dict _ _ _ _ _, S.le_refl W,
      hs, lookupResult_agree hes hk⟩
  · refine hother (fun k hk => h ⟨k, hk⟩) fun k hk => h ⟨k, ?_⟩
    subst hk
    obtain _ | ⟨hk, _ | _⟩ := hargs
    rw [eq_of_isAtom hk (isAtom_eq hk)]

/-- The call of a closure: what is drawn, and what is left to do. -/
theorem applyAt_closure_succ (depth : Nat) (i : Identity) {ps : List String} {b : List Expr}
    {args : List Value} (h : args.length = ps.length) {s : Store} (hs : s.Admits b) :
    (Value.closure i ps b).applyAt (depth + 1) args s =
      match (Value.literals? args).mapError Error.condition with
      | .error e => some (.error e, s.renaming b)
      | .ok ls => Expr.evalSeqAt depth .empty
          (Expr.substSeq (.ofLists ps ls) (Expr.renameAll b s.names).1) (s.renaming b) := by
  rw [Value.applyAt, if_pos h]
  simp only [Eval.bind_apply, Eval.renameBody_of_admits hs, Eval.ofCondition]
  cases (Value.literals? args).mapError Error.condition <;> rfl

/-- The call of a closure whose body cannot be renamed within the digit limit. -/
theorem applyAt_closure_not_admitted (depth : Nat) (i : Identity) {ps : List String}
    {b : List Expr} {args : List Value} (h : args.length = ps.length) {s : Store}
    (hs : ¬ s.Admits b) :
    (Value.closure i ps b).applyAt (depth + 1) args s =
      some (.error (.abort .longNumber), s) := by
  rw [Value.applyAt, if_pos h]
  simp only [Eval.bind_apply, Eval.renameBody_of_not_admits hs]

theorem applyAt_closure_arity (depth : Nat) (i : Identity) {ps : List String} {b : List Expr}
    {args : List Value} (h : args.length ≠ ps.length) :
    (Value.closure i ps b).applyAt (depth + 1) args =
      Eval.raise (.closureArity ps args.length) := by
  rw [Value.applyAt, if_neg h]

/-- A run that ends with an error is followed by one that ends with an error like it. -/
theorem follows_of_errors {α β : Type} (R : S.World → α → β → Prop) {W' : S.World} {x : Eval α}
    (y : Nat → Eval β) {s s' t t' : Store} {e e' : Error} (hx : x s = some (.error e, t))
    (hy : y depth s' = some (.error e', t')) (he : e.Alike e') (hW : S.le W W')
    (ht : S.fits W' t t') :
    (x s = none → y depth s' = none) ∧
      ∀ r u, x s = some (r, u) → ∃ k r' u' V, (k = depth ∨ S.searches) ∧ y k s' = some (r', u') ∧
        S.le W V ∧ S.fits V u u' ∧ Agree (R V) r r' := by
  refine ⟨fun hnone => absurd (hx.symm.trans hnone) (Option.some_ne_none _), fun r u hr => ?_⟩
  obtain ⟨rfl, rfl⟩ := Prod.mk.inj (Option.some.inj (hx.symm.trans hr))
  exact ⟨depth, _, _, W', .inl rfl, hy, hW, ht, .error he⟩

/-- **The call of a closure follows that of a related one**, if the calls in its body do. -/
theorem closure_runs (hA : S.Applies depth) {i j : Identity} {ps ps' : List String}
    {b b' : List Expr} {args args' : List Value} (hc : S.closure W ps b ps' b')
    (hargs : List.Forall₂ (S.value W) args args') :
    S.Runs S.value W (depth + 1) ((Value.closure i ps b).applyAt (depth + 1) args)
      fun k => (Value.closure j ps' b').applyAt k args' := by
  intro s s' hs
  have hlen := hargs.length_eq
  have har := S.arity_eq hc
  let y := fun k => (Value.closure j ps' b').applyAt k args'
  -- both closures take as many arguments, so both calls fail here or neither does
  by_cases h : args.length = ps.length
  · have h' : args'.length = ps'.length := by omega
    have hadm := S.admits_iff hc hs
    by_cases hb : s.Admits b
    case neg =>
      have hx := applyAt_closure_not_admitted depth i h hb
      have hy := applyAt_closure_not_admitted depth j h' fun hb' => hb (hadm.2 hb')
      exact follows_of_errors S.value y hx hy (.abort _) (S.le_refl W) hs
    obtain ⟨W₁, hW₁, hs₁, hls⟩ := S.call hc hs hargs h
    have hx := applyAt_closure_succ depth i h hb
    have hy := fun k => applyAt_closure_succ k j h' (hadm.1 hb)
    generalize (Value.literals? args).mapError Error.condition = r at hls hx
    generalize (Value.literals? args').mapError Error.condition = r' at hls hy
    cases hls with
    | error he => exact follows_of_errors S.value y hx (hy depth) he hW₁ hs₁
    | ok hes =>
      obtain ⟨hnone, hsome⟩ := evalSeqAt_runs hA hes EnvRel.empty _ _ hs₁
      refine ⟨fun hn => (hy depth).trans (hnone (hx.symm.trans hn)), fun r t hr => ?_⟩
      obtain ⟨k, r', t', W₂, hk, hyk, hW₂, hrest⟩ := hsome r t (hx.symm.trans hr)
      exact ⟨k + 1, r', t', W₂, hk.imp_left (congrArg (· + 1)), (hy k).trans hyk,
        S.le_trans hW₁ hW₂, hrest⟩
  · have h' : args'.length ≠ ps'.length := by omega
    have hx := congrFun (applyAt_closure_arity depth i (b := b) h) s
    have hy := congrFun (applyAt_closure_arity depth j (b := b') h') s'
    exact follows_of_errors S.value y hx hy (.condition ⟨rfl, rfl, rfl⟩) (S.le_refl W) hs

/-- Applying anything but a closure needs no depth. -/
theorem applyAt_steps {proc proc' : Value} {args args' : List Value}
    (hproc : S.value W proc proc') (hargs : List.Forall₂ (S.value W) args args')
    (hc : ∀ i ps b, proc ≠ .closure i ps b) (depth : Nat) :
    S.Steps S.value W (proc.applyAt depth args) (proc'.applyAt depth args') := by
  cases S.value_iff.1 hproc with
  | plain hp =>
    cases proc with
    | prim p =>
      rw [Value.applyAt_prim, Value.applyAt_prim]
      exact apply_steps p hargs
    | pair | closure | dict | code | sequence => simp [Value.identity?] at hp
    | _ =>
      unfold Value.applyAt
      exact notAProcedure_steps hproc
  | closure => exact absurd rfl (hc _ _ _)
  | dict _ hes => exact dict_apply_steps hes hargs depth depth
  | pair | code | sequence =>
    unfold Value.applyAt
    exact notAProcedure_steps hproc

/-- **Related values are applied alike**, at every depth. -/
theorem applies (S : Simulation) (depth : Nat) : S.Applies depth := by
  induction depth with
  | zero =>
    intro W proc proc' args args' hproc hargs
    by_cases hc : ∃ i ps b, proc = .closure i ps b
    · obtain ⟨i, ps, b, rfl⟩ := hc
      cases S.value_iff.1 hproc with
      | plain hp => simp [Value.identity?] at hp
      | closure =>
        refine fun s s' _ => ⟨fun _ => rfl, ?_⟩
        rintro r t ⟨⟩
    · exact (applyAt_steps hproc hargs (fun i ps b h => hc ⟨i, ps, b, h⟩) 0).runsAt
  | succ depth ih =>
    intro W proc proc' args args' hproc hargs
    by_cases hc : ∃ i ps b, proc = .closure i ps b
    · obtain ⟨i, ps, b, rfl⟩ := hc
      cases S.value_iff.1 hproc with
      | plain hp => simp [Value.identity?] at hp
      | closure _ hc => exact closure_runs ih hc hargs
    · exact (applyAt_steps hproc hargs (fun i ps b h => hc ⟨i, ps, b, h⟩) (depth + 1)).runsAt

/-- **Related programs run alike**: from stores that fit, one run of a sequence follows the
other. -/
theorem evalSeqAt_follows (S : Simulation) {W : S.World} {es es' : List Expr}
    (hes : List.Forall₂ (S.expr W) es es') {env env' : Environment} (henv : S.EnvRel W env env')
    (depth : Nat) :
    S.Runs S.value W depth (Expr.evalSeqAt depth env es) fun k => Expr.evalSeqAt k env' es' :=
  evalSeqAt_runs (S.applies depth) hes henv

/-- **The runs of two programs begin alike**: with related sequences, from stores that fit. -/
def Starts (S : Simulation) (p p' : List Expr) : Prop :=
  ∃ W s s' es es', S.fits W s s' ∧ List.Forall₂ (S.expr W) es es' ∧
    (∀ k, runProgram k p = Expr.evalSeqAt k .empty es s) ∧
    ∀ k, runProgram k p' = Expr.evalSeqAt k .empty es' s'

end Simulation

end Lambdict
