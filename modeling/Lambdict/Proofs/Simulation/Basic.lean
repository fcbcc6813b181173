import Lambdict.Desugar
import Lambdict.Proofs.Depth
import Lambdict.Proofs.DigitLimit
import Mathlib.Data.List.Forall2

/-!
# Simulation of one run by another

Two runs are compared that go through related expressions.  How the expressions are related is left
open; a `Simulation` says what the comparison needs of it.  Values are related layer by layer
(`Value.Layer`), expressions one node at a time (`Expr.Layer`), and the one step that is not
structural, the call of a closure, is a law of its own (`Simulation.call`).

What relates the runs can grow as they go on: objects that both make come to correspond, and names
are drawn.  So every relation is indexed by a *world*, and worlds are ordered by `Simulation.le`.

The second run may expand a dictionary that is looked up into a search.  It then needs more depth
than the first, and makes objects that the first does not.  `Simulation.searches` says whether that
can happen.  Where it cannot, the two runs need the same depth.
-/

namespace Lambdict

/-! ## Errors that are alike -/

namespace Condition

/-- The name that was found unbound. -/
def unboundName? : Condition → Option String
  | .unbound x => some x
  | _ => none

/-- The key that was not found. -/
def missingKey? : Condition → Option String
  | .keyNotFound k => some k
  | _ => none

/-- Two conditions are alike: they are of one kind, and it is the same name that is unbound, or the
same key that is missing.  Their messages may differ. -/
structure Alike (c d : Condition) : Prop where
  kind : c.kind = d.kind
  name : c.unboundName? = d.unboundName?
  key : c.missingKey? = d.missingKey?

@[refl]
theorem Alike.refl (c : Condition) : c.Alike c := ⟨rfl, rfl, rfl⟩

end Condition

/-- Two errors are alike: conditions that are alike, or one and the same abort. -/
inductive Error.Alike : Error → Error → Prop
  | condition {c d : Condition} (h : c.Alike d) : Error.Alike (.condition c) (.condition d)
  | abort (a : Abort) : Error.Alike (.abort a) (.abort a)

@[refl]
theorem Error.Alike.refl : ∀ e : Error, e.Alike e
  | .condition c => .condition (.refl c)
  | .abort a => .abort a

/-- Errors are alike both ways. -/
theorem Error.Alike.symm {e e' : Error} : e.Alike e' → e'.Alike e
  | .condition h => .condition ⟨h.kind.symm, h.name.symm, h.key.symm⟩
  | .abort a => .abort a

/-- What is alike to one error is alike to its like. -/
theorem Error.Alike.trans {e e' e'' : Error} : e.Alike e' → e'.Alike e'' → e.Alike e''
  | .condition h, .condition h' =>
    .condition ⟨h.kind.trans h'.kind, h.name.trans h'.name, h.key.trans h'.key⟩
  | .abort a, .abort _ => .abort a

/-- **Two results agree**: two values that a relation holds of, or two errors that are alike. -/
inductive Agree {α β : Type} (R : α → β → Prop) : Except Error α → Except Error β → Prop
  | ok {a : α} {b : β} (h : R a b) : Agree R (.ok a) (.ok b)
  | error {e e' : Error} (h : e.Alike e') : Agree R (.error e) (.error e')

/-- Results that agree in one way agree in every weaker one. -/
theorem Agree.imp {α β : Type} {R S : α → β → Prop} (h : ∀ a b, R a b → S a b)
    {r : Except Error α} {r' : Except Error β} : Agree R r r' → Agree S r r'
  | .ok hr => .ok (h _ _ hr)
  | .error he => .error he

/-- Results that agree with one result agree, as their values do. -/
theorem Agree.trans {α β γ : Type} {R : α → β → Prop} {Q : β → γ → Prop} {T : α → γ → Prop}
    (h : ∀ a b c, R a b → Q b c → T a c) {r : Except Error α} {r' : Except Error β}
    {r'' : Except Error γ} : Agree R r r' → Agree Q r' r'' → Agree T r r''
  | .ok hr, .ok hq => .ok (h _ _ _ hr hq)
  | .error he, .error he' => .error (he.trans he')

theorem rel_imp {α β : Type} {R S : α → β → Prop} (h : ∀ a b, R a b → S a b) {o : Option α}
    {o' : Option β} : Option.Rel R o o' → Option.Rel S o o'
  | .none => .none
  | .some hr => .some (h _ _ hr)

/-! ## Layers -/

/-- Entries that correspond: one key, and what belongs to it related. -/
def EntryRel {α β : Type} (R : α → β → Prop) (p : String × α) (q : String × β) : Prop :=
  p.1 = q.1 ∧ R p.2 q.2

/-- **The outermost layer of two related values.**  `I` relates identities, `C` what closures are
made of, and `V` the values inside.  Code and plain sequences only come from outside; `outer` says
whether there are any. -/
inductive Value.Layer (outer : Prop) (V : Value → Value → Prop) (I : Identity → Identity → Prop)
    (C : List String → List Expr → List String → List Expr → Prop) : Value → Value → Prop
  /-- Values that are no objects correspond to themselves. -/
  | plain {v : Value} (h : v.identity? = none) : Value.Layer outer V I C v v
  | pair {i j : Identity} {h h' t t' : Value} (hi : I i j) (hh : V h h') (ht : V t t') :
      Value.Layer outer V I C (.pair i h t) (.pair j h' t')
  | closure {i j : Identity} {ps ps' : List String} {b b' : List Expr} (hi : I i j)
      (hc : C ps b ps' b') : Value.Layer outer V I C (.closure i ps b) (.closure j ps' b')
  | dict {i j : Identity} {es es' : List (String × Value)} (hi : I i j)
      (hes : List.Forall₂ (EntryRel V) es es') : Value.Layer outer V I C (.dict i es) (.dict j es')
  | code {i j : Identity} {e : Expr} (hi : I i j) (ho : outer) :
      Value.Layer outer V I C (.code i e) (.code j e)
  | sequence {i j : Identity} {vs : List Value} (hi : I i j) (ho : outer) :
      Value.Layer outer V I C (.sequence i vs) (.sequence j vs)

namespace Desugar

/-- The body of the lambda that searches, over what stands for its parameters. -/
def scan (self entries box : Expr) : List Expr :=
  [.cond (call .isPair [entries])
    (.cond (call .eq [call .car [call .car [entries]], call .car [box]])
      (call .cdr [call .car [entries]])
      (.app self [self, call .cdr [entries], box]))
    (.app (call .dict []) [call .car [box]])]

/-- The lambda that searches, with other names for its parameters. -/
def scannerOf (self entries box : String) : Expr :=
  .lambda [self, entries, box] (scan (.var self) (.var entries) (.var box))

/-- The call that makes the pair of a key and a value. -/
def pairCall (k : String) (e : Expr) : Expr :=
  call .cons [.quote (.symbol k), e]

/-- The search for a key in a list of pairs, by two searching lambdas with names of their own. -/
def searchBy (f g : Expr) (pairs : List Expr) (key : Expr) : Expr :=
  .app f [g, call .list pairs, call .list [key]]

end Desugar

/-- Names that a searching lambda can have for its parameters. -/
def ScannerNames (a b c : String) : Prop :=
  [a, b, c].Nodup ∧ "" ∉ [a, b, c]

/-- An entry of a dictionary literal and the call that makes a pair of it. -/
def PairCallRel (E : Expr → Expr → Prop) (p : String × Expr) (e : Expr) : Prop :=
  ∃ e', e = Desugar.pairCall p.1 e' ∧ E p.2 e'

/-- **The outermost layer of two related expressions.**  Either both have the same form, or the
second expands a dictionary literal of the first. -/
inductive Expr.Layer (searches : Prop) (E : Expr → Expr → Prop) (V : Value → Value → Prop)
    (C : List String → List Expr → List String → List Expr → Prop) : Expr → Expr → Prop
  | number (n : Number) : Expr.Layer searches E V C (.number n) (.number n)
  | boolean (b : Bool) : Expr.Layer searches E V C (.boolean b) (.boolean b)
  | string (s : String) : Expr.Layer searches E V C (.string s) (.string s)
  | var (x : String) : Expr.Layer searches E V C (.var x) (.var x)
  | prim (p : Primitive) : Expr.Layer searches E V C (.prim p) (.prim p)
  | quote {d d' : Value} (hd : V d d') : Expr.Layer searches E V C (.quote d) (.quote d')
  | cond {t t' c c' a a' : Expr} (ht : E t t') (hc : E c c') (ha : E a a') :
      Expr.Layer searches E V C (.cond t c a) (.cond t' c' a')
  | lambda {ps ps' : List String} {b b' : List Expr} (hc : C ps b ps' b') :
      Expr.Layer searches E V C (.lambda ps b) (.lambda ps' b')
  | app {f f' : Expr} {es es' : List Expr} (hf : E f f') (hes : List.Forall₂ E es es') :
      Expr.Layer searches E V C (.app f es) (.app f' es')
  | define (x : String) {e e' : Expr} (he : E e e') :
      Expr.Layer searches E V C (.define x e) (.define x e')
  | dict {es es' : List (String × Expr)} (hes : List.Forall₂ (EntryRel E) es es') :
      Expr.Layer searches E V C (.dict es) (.dict es')
  | construct {es : List (String × Expr)} {calls : List Expr}
      (hes : List.Forall₂ (PairCallRel E) es calls) :
      Expr.Layer searches E V C (.dict es) (Desugar.call .dict calls)
  | search {es : List (String × Expr)} {calls : List Expr} {key key' : Expr}
      {a b c a' b' c' : String} (hs : searches) (hes : List.Forall₂ (PairCallRel E) es calls)
      (hk : E key key') (hn : ScannerNames a b c) (hn' : ScannerNames a' b' c') :
      Expr.Layer searches E V C (.app (.dict es) [key])
        (Desugar.searchBy (Desugar.scannerOf a b c) (Desugar.scannerOf a' b' c') calls key')
  | foreign (v : Value) : Expr.Layer searches E V C (.foreign v) (.foreign v)

/-! ## Simulations -/

/-- The store after one more object was made. -/
def Store.next (s : Store) : Store := { s with made := s.made + 1 }

/-- **What it takes to compare two runs.** -/
structure Simulation where
  /-- What relates the runs at a moment. -/
  World : Type
  /-- A later world relates whatever an earlier one does. -/
  le : World → World → Prop
  /-- The stores of the two runs in a world. -/
  fits : World → Store → Store → Prop
  same : World → Identity → Identity → Prop
  value : World → Value → Value → Prop
  closure : World → List String → List Expr → List String → List Expr → Prop
  expr : World → Expr → Expr → Prop
  /-- Whether the second run may search where the first looks up. -/
  searches : Prop
  /-- Whether there is code or a plain sequence among the values. -/
  outer : Prop
  le_refl : ∀ W, le W W
  le_trans : ∀ {W₁ W₂ W₃}, le W₁ W₂ → le W₂ W₃ → le W₁ W₃
  value_mono : ∀ {W W' v v'}, le W W' → value W v v' → value W' v v'
  closure_mono : ∀ {W W' ps b ps' b'}, le W W' → closure W ps b ps' b' → closure W' ps b ps' b'
  expr_mono : ∀ {W W' e e'}, le W W' → expr W e e' → expr W' e e'
  one_to_one : ∀ {W s s' i i' j j'}, fits W s s' → same W i j → same W i' j' → (i = i' ↔ j = j')
  /-- Objects that both runs make correspond. -/
  next : ∀ {W s s'}, fits W s s' →
    ∃ W', le W W' ∧ fits W' s.next s'.next ∧ same W' (.made s.made) (.made s'.made)
  /-- Where the second run searches, each run may make an object of its own. -/
  next_left : searches → ∀ {W s s'}, fits W s s' → fits W s.next s'
  next_right : searches → ∀ {W s s'}, fits W s s' → fits W s s'.next
  value_iff : ∀ {W v v'}, value W v v' ↔ Value.Layer outer (value W) (same W) (closure W) v v'
  writable_eq : ∀ {W v v'}, value W v v' → v.writable = v'.writable
  expr_cases : ∀ {W e e'}, expr W e e' →
    Expr.Layer searches (expr W) (value W) (closure W) e e'
  arity_eq : ∀ {W ps b ps' b'}, closure W ps b ps' b' → ps.length = ps'.length
  /-- Either both bodies can be renamed within the digit limit, or neither can. -/
  admits_iff : ∀ {W ps b ps' b' s s'}, closure W ps b ps' b' → fits W s s' →
    (s.Admits b ↔ s'.Admits b')
  /-- **The call of a closure**: what is left to evaluate is related again. -/
  call : ∀ {W ps b ps' b' s s' args args'}, closure W ps b ps' b' → fits W s s' →
    List.Forall₂ (value W) args args' → args.length = ps.length →
    ∃ W', le W W' ∧ fits W' (s.renaming b) (s'.renaming b') ∧
      Agree (fun ls ls' => List.Forall₂ (expr W')
          (Expr.substSeq (.ofLists ps ls) (Expr.renameAll b s.names).1)
          (Expr.substSeq (.ofLists ps' ls') (Expr.renameAll b' s'.names).1))
        ((Value.literals? args).mapError .condition) ((Value.literals? args').mapError .condition)

namespace Simulation

variable (S : Simulation) {α β γ δ : Type}

/-- **One run keeps step with another**: both end at once, with results that agree and in stores
that fit a later world. -/
def Steps (R : S.World → α → β → Prop) (W : S.World) (x : Eval α) (y : Eval β) : Prop :=
  ∀ s s', S.fits W s s' → ∃ r r' t t' W', x s = some (r, t) ∧ y s' = some (r', t') ∧
    S.le W W' ∧ S.fits W' t t' ∧ Agree (R W') r r'

/-- **One run follows another**, from a depth on.  Where the first does not end within its depth,
the second does not either; where the first ends, the second ends within some depth, which is the
same one unless the second searches. -/
def Runs (R : S.World → α → β → Prop) (W : S.World) (depth : Nat) (x : Eval α)
    (y : Nat → Eval β) : Prop :=
  ∀ s s', S.fits W s s' →
    (x s = none → y depth s' = none) ∧
    ∀ r t, x s = some (r, t) → ∃ k r' t' W', (k = depth ∨ S.searches) ∧ y k s' = some (r', t') ∧
      S.le W W' ∧ S.fits W' t t' ∧ Agree (R W') r r'

/-- The relation of environments. -/
def EnvRel (W : S.World) (env env' : Environment) : Prop :=
  List.Forall₂ (EntryRel (S.value W)) env.bindings env'.bindings

variable {S} {R : S.World → α → β → Prop} {Q : S.World → γ → δ → Prop} {W W' : S.World}

/-! ## Steps -/

/-- Related values are given at once. -/
theorem Steps.pure {a : α} {b : β} (h : R W a b) : S.Steps R W (pure a) (pure b) :=
  fun _ _ hs => ⟨_, _, _, _, W, rfl, rfl, S.le_refl W, hs, .ok h⟩

/-- Errors that are alike are given at once. -/
theorem Steps.fail {e e' : Error} (h : e.Alike e') :
    S.Steps R W (Eval.fail e) (Eval.fail e') :=
  fun _ _ hs => ⟨_, _, _, _, W, rfl, rfl, S.le_refl W, hs, .error h⟩

theorem Steps.raise {c d : Condition} (h : c.Alike d) :
    S.Steps R W (Eval.raise c) (Eval.raise d) :=
  Steps.fail (.condition h)

/-- **Runs that keep step may be followed by runs that do**, in every later world. -/
theorem Steps.bind {x : Eval α} {y : Eval β} {f : α → Eval γ} {g : β → Eval δ}
    (hx : S.Steps R W x y)
    (hf : ∀ W' a b, S.le W W' → R W' a b → S.Steps Q W' (f a) (g b)) :
    S.Steps Q W (x >>= f) (y >>= g) := by
  intro s s' hs
  obtain ⟨r, r', t, t', W₁, hxs, hys, hW₁, ht, hr⟩ := hx s s' hs
  cases hr with
  | error he =>
    exact ⟨_, _, _, _, W₁, by simp [Eval.bind_apply, hxs], by simp [Eval.bind_apply, hys], hW₁, ht,
      .error he⟩
  | @ok a b hab =>
    obtain ⟨r, r', u, u', W₂, hfs, hgs, hW₂, hu, hr⟩ := hf W₁ a b hW₁ hab t t' ht
    refine ⟨r, r', u, u', W₂, ?_, ?_, S.le_trans hW₁ hW₂, hu, hr⟩
    · simp [Eval.bind_apply, hxs, hfs]
    · simp [Eval.bind_apply, hys, hgs]

/-- Two runs that make an object at once may take the two for the same. -/
theorem Steps.newIdentity : S.Steps S.same W Eval.newIdentity Eval.newIdentity := by
  intro s s' hs
  obtain ⟨W', hW, hs', hsame⟩ := S.next hs
  exact ⟨_, _, _, _, W', rfl, rfl, hW, hs', .ok hsame⟩

/-! ## Runs -/

theorem Steps.runsAt {depth : Nat} {x : Eval α} {y : Nat → Eval β}
    (h : S.Steps R W x (y depth)) : S.Runs R W depth x y := by
  intro s s' hs
  obtain ⟨r, r', t, t', W', hxs, hys, hrest⟩ := h s s' hs
  refine ⟨fun hn => by simp [hn] at hxs, fun r₁ t₁ h₁ => ?_⟩
  obtain ⟨rfl, rfl⟩ := Prod.mk.inj (Option.some.inj (hxs.symm.trans h₁))
  exact ⟨depth, r', t', W', .inl rfl, hys, hrest⟩

/-- A run that keeps step with another follows it. -/
theorem Steps.runs {x : Eval α} {y : Eval β} (h : S.Steps R W x y) (depth : Nat) :
    S.Runs R W depth x fun _ => y :=
  Steps.runsAt h

/-- **A run that follows another may be followed by one that does**, if the depth settles both. -/
theorem Runs.bind {depth : Nat} {x : Eval α} {y : Nat → Eval β} {f : α → Eval γ}
    {g : Nat → β → Eval δ} (hx : S.Runs R W depth x y) (hy : Eval.Settles y)
    (hg : ∀ b, Eval.Settles fun k => g k b)
    (hf : ∀ W' a b, S.le W W' → R W' a b → S.Runs Q W' depth (f a) fun k => g k b) :
    S.Runs Q W depth (x >>= f) fun k => y k >>= g k := by
  intro s s' hs
  obtain ⟨hnone, hsome⟩ := hx s s' hs
  cases hxs : x s with
  | none =>
    refine ⟨fun _ => ?_, fun r t h => ?_⟩
    · simp [Eval.bind_apply, hnone hxs]
    · simp [Eval.bind_apply, hxs] at h
  | some o =>
    obtain ⟨r, t⟩ := o
    obtain ⟨k, r', t', W₁, hk, hys, hW₁, ht, hr⟩ := hsome r t hxs
    cases hr with
    | error he =>
      refine ⟨fun h => by simp [Eval.bind_apply, hxs] at h, fun r₁ t₁ h => ?_⟩
      simp only [Eval.bind_apply, hxs, Option.some.injEq, Prod.mk.injEq] at h
      obtain ⟨rfl, rfl⟩ := h
      exact ⟨k, _, _, W₁, hk, by simp [Eval.bind_apply, hys], hW₁, ht, .error he⟩
    | @ok a b hab =>
      obtain ⟨hnone', hsome'⟩ := hf W₁ a b hW₁ hab t t' ht
      refine ⟨fun h => ?_, fun r₁ t₁ h => ?_⟩
      · -- the second run is at `b` within its depth, or has not got that far
        simp only [Eval.bind_apply, hxs] at h
        simp only [Eval.bind_apply]
        cases hyd : y depth s' with
        | none => rfl
        | some o =>
          have h₁ := hy (Nat.le_max_left depth k) _ _ hyd
          have h₂ := hy (Nat.le_max_right depth k) _ _ hys
          obtain rfl := Option.some.inj (h₁.symm.trans h₂)
          exact hnone' h
      · simp only [Eval.bind_apply, hxs] at h
        obtain ⟨k', r', u', W₂, hk', hgs, hW₂, hu, hr⟩ := hsome' r₁ t₁ h
        refine ⟨max k k', r', u', W₂, ?_, ?_, S.le_trans hW₁ hW₂, hu, hr⟩
        · rcases hk with rfl | hk
          · rcases hk' with rfl | hk'
            · exact .inl (Nat.max_self _)
            · exact .inr hk'
          · exact .inr hk
        · simp only [Eval.bind_apply, hy (Nat.le_max_left k k') _ _ hys]
          exact hg b (Nat.le_max_right k k') _ _ hgs

/-- The second run may make an object first. -/
theorem Runs.right_newIdentity (h : S.searches) {depth : Nat} {x : Eval α}
    {g : Nat → Identity → Eval β} (hx : ∀ id, S.Runs R W depth x fun k => g k id) :
    S.Runs R W depth x fun k => Eval.newIdentity >>= g k := by
  intro s s' hs
  exact hx _ s s'.next (S.next_right h hs)

/-- The first run may make an object first. -/
theorem Runs.left_newIdentity (h : S.searches) {depth : Nat} {f : Identity → Eval α}
    {y : Nat → Eval β} (hf : ∀ id, S.Runs R W depth (f id) y) :
    S.Runs R W depth (Eval.newIdentity >>= f) y := by
  intro s s' hs
  exact hf _ s.next s' (S.next_left h hs)

/-- **Where nothing is searched, the two runs go on together**: within the same depth both end, or
neither does, and then they are in a later world. -/
theorem Runs.together (h : ¬ S.searches) {depth : Nat} {x : Eval α} {y : Nat → Eval β}
    (hx : S.Runs R W depth x y) {s s' : Store} (hs : S.fits W s s') :
    Option.Rel (fun o o' => ∃ W', S.le W W' ∧ S.fits W' o.2 o'.2 ∧ Agree (R W') o.1 o'.1)
      (x s) (y depth s') := by
  obtain ⟨hnone, hsome⟩ := hx s s' hs
  cases hxs : x s with
  | none =>
    rw [hnone hxs]
    exact .none
  | some o =>
    obtain ⟨k, r', t', W', hk, hys, hle, ht, hr⟩ := hsome o.1 o.2 hxs
    obtain rfl := hk.resolve_right h
    rw [hys]
    exact .some ⟨W', hle, ht, hr⟩

/-- The two runs go on in lockstep, as far as it can be told from what they come to. -/
theorem Runs.lockstep (h : ¬ S.searches) {depth : Nat} {x : Eval α} {y : Nat → Eval β}
    (hx : S.Runs R W depth x y) {s s' : Store} (hs : S.fits W s s')
    {E : Except Error α × Store → Except Error β × Store → Prop}
    (hE : ∀ W' r t r' t', S.fits W' t t' → Agree (R W') r r' → E (r, t) (r', t')) :
    Option.Rel E (x s) (y depth s') := by
  refine rel_imp ?_ (hx.together h hs)
  rintro ⟨r, t⟩ ⟨r', t'⟩ ⟨W', -, ht, hr⟩
  exact hE W' r t r' t' ht hr

end Simulation

end Lambdict
