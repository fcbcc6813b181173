import Lambdict.Proofs.Dictionaries.Chains
import Lambdict.Proofs.Safety.Run
import Lambdict.Proofs.Simulation.Invariant

/-!
# Runs keep chains of entries

A program that was read runs on chains as it runs on entries (`runOnChains_follows`).  It gives the
same value or the same error in the same store, and stops for want of depth where the other does.
It never reads a head that is not there, and every chain that it makes, however it ends, is a chain
of entries.

The reason is that every dictionary the run holds has its chain, and the chain spells out its
entries.  This is said of a value with all that is inside (`Value.Chained`), since a dictionary is
carried around in pairs, in other dictionaries and in the data that an argument becomes in the body
of a closure.  Chains that are made later leave it true: each is kept under an identity of its own.
-/

namespace Lambdict

open SExpr (exists_of_bind_eq_ok)

/-! ## Values whose dictionaries have chains -/

namespace Chains

/-- Chains that are there stay as they are. -/
def Le (L L' : Chains) : Prop :=
  ∀ i c, L.lookup i = some c → L'.lookup i = some c

theorem Le.refl (L : Chains) : L.Le L := fun _ _ h => h

theorem Le.trans {L L' L'' : Chains} (h : L.Le L') (h' : L'.Le L'') : L.Le L'' :=
  fun i c hc => h' i c (h i c hc)

end Chains

mutual

/-- The dictionaries in the quoted data of an expression have chains. -/
def Expr.Chained (L : Chains) : Expr → Prop
  | .number _ | .boolean _ | .string _ | .var _ | .prim _ => True
  | .cond t c a => t.Chained L ∧ c.Chained L ∧ a.Chained L
  | .lambda _ b => Expr.ChainedAll L b
  | .app f es => f.Chained L ∧ Expr.ChainedAll L es
  | .define _ e => e.Chained L
  | .quote d => d.Chained L
  | .dict es => Expr.ChainedEntries L es
  | .foreign _ => False

/-- The same of several expressions. -/
def Expr.ChainedAll (L : Chains) : List Expr → Prop
  | [] => True
  | e :: es => e.Chained L ∧ Expr.ChainedAll L es

/-- The same of the values of a dictionary literal. -/
def Expr.ChainedEntries (L : Chains) : List (String × Expr) → Prop
  | [] => True
  | (_, e) :: es => e.Chained L ∧ Expr.ChainedEntries L es

/-- **The dictionaries in a value have chains**, and the chain of each spells out its entries. -/
def Value.Chained (L : Chains) : Value → Prop
  | .number _ | .boolean _ | .string _ | .symbol _ | .empty | .prim _ => True
  | .pair _ h t => h.Chained L ∧ t.Chained L
  | .closure _ _ b => Expr.ChainedAll L b
  | .dict i es => (∃ c, L.lookup i = some c ∧ c.Spells es) ∧ Value.ChainedEntries L es
  | .nothing | .code _ _ | .sequence _ _ => False

/-- The same of the entries of a dictionary. -/
def Value.ChainedEntries (L : Chains) : List (String × Value) → Prop
  | [] => True
  | (_, v) :: es => v.Chained L ∧ Value.ChainedEntries L es

end

/-- The dictionaries of a sequence have chains when those of each element do. -/
theorem Expr.chainedAll_iff {L : Chains} {es : List Expr} :
    Expr.ChainedAll L es ↔ ∀ e ∈ es, e.Chained L := by
  induction es with
  | nil => simp [Expr.ChainedAll]
  | cons e es ih => simp [Expr.ChainedAll, ih]

/-- The dictionaries in entries have chains when those in each value do. -/
theorem Value.chainedEntries_iff {L : Chains} {es : List (String × Value)} :
    Value.ChainedEntries L es ↔ ∀ p ∈ es, p.2.Chained L := by
  induction es with
  | nil => simp [Value.ChainedEntries]
  | cons p es ih => simp [Value.ChainedEntries, ih]

mutual

/-- Dictionaries that have chains keep them when more are made. -/
theorem Expr.Chained.mono {L L' : Chains} (hL : L.Le L') : ∀ {e : Expr}, e.Chained L → e.Chained L'
  | .number _, _ | .boolean _, _ | .string _, _ | .var _, _ | .prim _, _ => trivial
  | .cond _ _ _, ⟨ht, hc, ha⟩ => ⟨ht.mono hL, hc.mono hL, ha.mono hL⟩
  | .lambda _ b, h => Expr.ChainedAll.mono hL (show Expr.ChainedAll L b from h)
  | .app _ _, ⟨hf, hes⟩ => ⟨hf.mono hL, Expr.ChainedAll.mono hL hes⟩
  | .define _ e, h => Expr.Chained.mono hL (e := e) h
  | .quote d, h => Value.Chained.mono hL (v := d) h
  | .dict es, h => Expr.ChainedEntries.mono hL (show Expr.ChainedEntries L es from h)

theorem Expr.ChainedAll.mono {L L' : Chains} (hL : L.Le L') : ∀ {es : List Expr},
    Expr.ChainedAll L es → Expr.ChainedAll L' es
  | [], _ => trivial
  | _ :: _, ⟨he, hes⟩ => ⟨he.mono hL, Expr.ChainedAll.mono hL hes⟩

theorem Expr.ChainedEntries.mono {L L' : Chains} (hL : L.Le L') : ∀ {es : List (String × Expr)},
    Expr.ChainedEntries L es → Expr.ChainedEntries L' es
  | [], _ => trivial
  | (_, _) :: _, ⟨he, hes⟩ => ⟨he.mono hL, Expr.ChainedEntries.mono hL hes⟩

/-- A value whose dictionaries have chains keeps them when more are made. -/
theorem Value.Chained.mono {L L' : Chains} (hL : L.Le L') : ∀ {v : Value},
    v.Chained L → v.Chained L'
  | .number _, _ | .boolean _, _ | .string _, _ | .symbol _, _ | .empty, _ | .prim _, _ => trivial
  | .pair _ _ _, ⟨hh, ht⟩ => ⟨hh.mono hL, ht.mono hL⟩
  | .closure _ _ b, h => Expr.ChainedAll.mono hL (show Expr.ChainedAll L b from h)
  | .dict _ _, ⟨⟨c, hc, hspells⟩, hes⟩ =>
    ⟨⟨c, hL _ _ hc, hspells⟩, Value.ChainedEntries.mono hL hes⟩

theorem Value.ChainedEntries.mono {L L' : Chains} (hL : L.Le L') : ∀ {es : List (String × Value)},
    Value.ChainedEntries L es → Value.ChainedEntries L' es
  | [], _ => trivial
  | (_, _) :: _, ⟨hv, hes⟩ => ⟨hv.mono hL, Value.ChainedEntries.mono hL hes⟩

end

theorem Value.passedOn_chained (L : Chains) : Value.PassedOn (Value.Chained L) where
  number _ := trivial
  boolean _ := trivial
  empty := trivial
  pair := Iff.rfl
  lookup := by
    intro id es k v h hv
    obtain ⟨l₁, l₂, rfl, -⟩ := List.lookup_eq_some_iff.1 hv
    exact Value.chainedEntries_iff.1 h.2 (k, v) (by simp)

/-! ## Data, substitution, renaming and literals -/

/-- Data that a text can write has no dictionaries. -/
theorem Value.Readable.chained (L : Chains) : ∀ {d : Value}, d.Readable → d.Chained L
  | .number _, _ | .boolean _, _ | .string _, _ | .symbol _, _ | .empty, _ => trivial
  | .pair _ _ _, ⟨hh, ht⟩ => ⟨hh.chained L, ht.chained L⟩

namespace Expr

mutual

/-- What was read holds no dictionaries. -/
theorem Every.chained (L : Chains) : ∀ {e : Expr}, e.Every NodeSound → e.Chained L
  | .number _, _ | .boolean _, _ | .string _, _ | .var _, _ | .prim _, _ => trivial
  | .cond _ _ _, h => ⟨h.2.1.chained L, h.2.2.1.chained L, h.2.2.2.chained L⟩
  | .lambda _ b, h => EveryAll.chainedAll L (show EveryAll NodeSound b from h.2)
  | .app _ _, h => ⟨h.2.1.chained L, EveryAll.chainedAll L h.2.2⟩
  | .define _ e, h => Every.chained L (e := e) h.2
  | .quote d, h => Value.Readable.chained L (d := d) h.2
  | .dict es, h => EveryEntry.chainedEntries L (show EveryEntry NodeSound es from h.2)
  | .foreign _, h => h.1.elim

/-- A program that was read quotes no dictionaries. -/
theorem EveryAll.chainedAll (L : Chains) : ∀ {es : List Expr}, EveryAll NodeSound es →
    ChainedAll L es
  | [], _ => trivial
  | _ :: _, h => ⟨h.1.chained L, EveryAll.chainedAll L h.2⟩

theorem EveryEntry.chainedEntries (L : Chains) : ∀ {es : List (String × Expr)},
    EveryEntry NodeSound es → ChainedEntries L es
  | [], _ => trivial
  | (_, _) :: _, h => ⟨h.1.chained L, EveryEntry.chainedEntries L h.2⟩

end

/-- A substitution that puts in expressions whose dictionaries have chains. -/
def SubstChained (L : Chains) (σ : Substitution) : Prop :=
  ∀ r ∈ σ, r.2.Chained L

theorem SubstChained.filter {L : Chains} {σ : Substitution} (h : SubstChained L σ)
    (f : String × Expr → Bool) : SubstChained L (σ.filter f) :=
  fun r hr => h r (List.mem_of_mem_filter hr)

theorem SubstChained.ofLists {L : Chains} (names : List String) {es : List Expr}
    (h : ChainedAll L es) : SubstChained L (.ofLists names es) :=
  fun _ hr => chainedAll_iff.1 h _ (List.of_mem_zip (List.mem_reverse.1 hr)).2

mutual

/-- **A substitution brings no dictionary without a chain.** -/
theorem Chained.subst {L : Chains} {σ : Substitution} (hσ : SubstChained L σ) :
    ∀ {e : Expr}, e.Chained L → (e.subst σ).Chained L
  | .var x, h => by
    rw [Expr.subst]
    cases hx : σ.find? x with
    | none => exact h
    | some e => exact hσ (x, e) (Substitution.mem_of_find? hx)
  | .number _, _ | .boolean _, _ | .string _, _ | .prim _, _ => trivial
  | .cond _ _ _, ⟨ht, hc, ha⟩ => ⟨ht.subst hσ, hc.subst hσ, ha.subst hσ⟩
  | .lambda _ b, h => ChainedAll.substSeq (hσ.filter _) (show ChainedAll L b from h)
  | .app _ _, ⟨hf, hes⟩ => ⟨hf.subst hσ, ChainedAll.substEach hσ hes⟩
  | .define _ e, h => Chained.subst hσ (e := e) h
  | .quote _, h => h
  | .dict es, h => ChainedEntries.substEntries hσ (show ChainedEntries L es from h)
termination_by structural e => e

theorem ChainedAll.substSeq {L : Chains} {σ : Substitution} (hσ : SubstChained L σ) :
    ∀ {es : List Expr}, ChainedAll L es → ChainedAll L (substSeq σ es)
  | [], _ => trivial
  | e :: es, ⟨he, hes⟩ => by
    have hhead := he.subst hσ
    cases e with
    | define x d => exact ⟨hhead, ChainedAll.substSeq (hσ.filter _) hes⟩
    | _ => exact ⟨hhead, ChainedAll.substSeq hσ hes⟩
termination_by structural es => es

theorem ChainedAll.substEach {L : Chains} {σ : Substitution} (hσ : SubstChained L σ) :
    ∀ {es : List Expr}, ChainedAll L es → ChainedAll L (substEach σ es)
  | [], _ => trivial
  | _ :: _, ⟨he, hes⟩ => ⟨he.subst hσ, ChainedAll.substEach hσ hes⟩
termination_by structural es => es

theorem ChainedEntries.substEntries {L : Chains} {σ : Substitution} (hσ : SubstChained L σ) :
    ∀ {es : List (String × Expr)}, ChainedEntries L es → ChainedEntries L (substEntries σ es)
  | [], _ => trivial
  | (_, _) :: _, ⟨he, hes⟩ => ⟨he.subst hσ, ChainedEntries.substEntries hσ hes⟩
termination_by structural es => es

end

mutual

/-- Renaming brings no dictionary. -/
theorem Chained.rename {L : Chains} : ∀ {e : Expr} (s : NameSupply), e.Chained L →
    (e.rename s).1.Chained L
  | .number _, _, _ | .boolean _, _, _ | .string _, _, _ | .var _, _, _ | .prim _, _, _ => trivial
  | .cond _ _ _, _, ⟨ht, hc, ha⟩ => ⟨ht.rename _, hc.rename _, ha.rename _⟩
  | .lambda ps b, s, h => by
    -- a body takes variables for its parameters, and these hold no data
    have hvars (xs : List String) : ChainedAll L (xs.map .var) :=
      chainedAll_iff.2 fun e he => by
        obtain ⟨x, -, rfl⟩ := List.mem_map.1 he
        trivial
    have hb : ChainedAll L (renameAll b s).1 := ChainedAll.renameAll s h
    exact hb.substSeq (.ofLists ps (hvars _))
  | .app _ _, _, ⟨hf, hes⟩ => ⟨hf.rename _, ChainedAll.renameAll _ hes⟩
  | .define _ e, s, h => Chained.rename (e := e) s h
  | .quote _, _, h => h
  | .dict es, s, h => ChainedEntries.renameEntries s (show ChainedEntries L es from h)

theorem ChainedAll.renameAll {L : Chains} : ∀ {es : List Expr} (s : NameSupply),
    ChainedAll L es → ChainedAll L (renameAll es s).1
  | [], _, _ => trivial
  | _ :: _, _, ⟨he, hes⟩ => ⟨he.rename _, ChainedAll.renameAll _ hes⟩

theorem ChainedEntries.renameEntries {L : Chains} : ∀ {es : List (String × Expr)} (s : NameSupply),
    ChainedEntries L es → ChainedEntries L (renameEntries es s).1
  | [], _, _ => trivial
  | (_, _) :: _, _, ⟨he, hes⟩ => ⟨he.rename _, ChainedEntries.renameEntries _ hes⟩

end

theorem lambda?_eq_ok {ps : List String} {b : List Expr} {e : Expr}
    (h : Expr.lambda? ps b = .ok e) : e = .lambda ps b := by
  unfold Expr.lambda? at h
  obtain ⟨-, -, h⟩ := exists_of_bind_eq_ok h
  split at h
  · cases h
  · exact (Except.ok.inj h).symm

end Expr

/-- The literal of a value holds the data of the value. -/
theorem Value.Chained.literal? {L : Chains} {v : Value} {e : Expr} (hv : v.Chained L)
    (h : v.literal? = .ok e) : e.Chained L := by
  cases v with
  | closure i ps b =>
    rw [Value.literal?] at h
    cases hl : Expr.lambda? ps b with
    | error fault =>
      rw [hl] at h
      cases h
    | ok e' =>
      rw [hl] at h
      obtain rfl := Except.ok.inj h
      obtain rfl := Expr.lambda?_eq_ok hl
      exact hv
  | number | boolean | string | prim | symbol | empty =>
    obtain rfl := Except.ok.inj h
    trivial
  | pair =>
    obtain rfl := Except.ok.inj h
    exact hv
  | dict | nothing | code | sequence => cases h

/-- The literals of arguments quote the dictionaries of the arguments. -/
theorem Value.chained_literals? {L : Chains} {vs : List Value} {es : List Expr}
    (hvs : ∀ v ∈ vs, v.Chained L) (h : Value.literals? vs = .ok es) : Expr.ChainedAll L es := by
  induction vs generalizing es with
  | nil =>
    obtain rfl := Except.ok.inj h
    trivial
  | cons v vs ih =>
    obtain ⟨hv, hrest⟩ := List.forall_mem_cons.1 hvs
    obtain ⟨e, he, h⟩ := exists_of_bind_eq_ok h
    obtain ⟨es', hes', h⟩ := exists_of_bind_eq_ok h
    obtain rfl := Except.ok.inj h
    exact ⟨hv.literal? he, ih hrest hes'⟩

/-! ## One run beside the other -/

/-- What is known of the chains of a run at any moment. -/
structure ChainStore.Sound (s : ChainStore) : Prop where
  /-- They are kept under the identities of objects that were made. -/
  made : ∀ p ∈ s.chains, ∃ n, n < s.store.made ∧ p.1 = .made n
  chains : ∀ p ∈ s.chains, p.2.IsChain

/-- **How an evaluation on chains ends that begins with `s`**, beside the same evaluation on
entries: in the same way and in the same store, with sound chains, and with a value as `P` says.  It
is never blind. -/
inductive Ends {α : Type} (P : Chains → α → Prop) (s : ChainStore) :
    Option (Except Error α × Store) → Except Stop α × ChainStore → Prop
  | value {a : α} {t : ChainStore} (ht : t.Sound) (hle : s.chains.Le t.chains)
      (ha : P t.chains a) : Ends P s (some (.ok a, t.store)) (.ok a, t)
  | error {e : Error} {t : ChainStore} (ht : t.Sound) (hle : s.chains.Le t.chains) :
      Ends P s (some (.error e, t.store)) (.error (.error e), t)
  | exhausted {t : ChainStore} (ht : t.Sound) (hle : s.chains.Le t.chains) :
      Ends P s none (.error .exhausted, t)

/-- How an evaluation ends says nothing of the store it begins with, but for the chains there. -/
theorem Ends.of_chains_eq {α : Type} {P : Chains → α → Prop} {s s' : ChainStore}
    {o : Option (Except Error α × Store)} {r : Except Stop α × ChainStore}
    (h : Ends P s o r) (hs : s.chains = s'.chains) : Ends P s' o r := by
  cases h with
  | value ht hle ha => exact .value ht (hs ▸ hle) ha
  | error ht hle => exact .error ht (hs ▸ hle)
  | exhausted ht hle => exact .exhausted ht (hs ▸ hle)

/-- An evaluation on chains follows one on entries, from any store with at least given chains. -/
def Follows {α : Type} (L : Chains) (P : Chains → α → Prop) (x : Eval α) (y : ChainEval α) : Prop :=
  ∀ s : ChainStore, s.Sound → L.Le s.chains → Ends P s (x s.store) (y s)

open ChainEval (lift chainOf keepDict scan makeDict)

namespace Follows

variable {α β : Type} {L : Chains} {P : Chains → α → Prop} {Q : Chains → β → Prop}

theorem pure {a : α} (h : ∀ L', L.Le L' → P L' a) : Follows L P (pure a) (pure a) :=
  fun _ hs hL => .value hs (.refl _) (h _ hL)

/-- **An evaluation that follows another may be followed by one that does**, from the chains at that
moment. -/
theorem bind {x : Eval α} {y : ChainEval α} {f : α → Eval β} {g : α → ChainEval β}
    (hx : Follows L P x y)
    (hf : ∀ L' a, L.Le L' → P L' a → Follows L' Q (f a) (g a)) :
    Follows L Q (x >>= f) (y >>= g) := by
  intro s hs hL
  have hends := hx s hs hL
  rw [Eval.bind_apply, ChainEval.bind_apply]
  generalize x s.store = o at hends
  generalize y s = r at hends
  cases hends with
  | @value a t ht hle ha =>
    have hrest := hf _ a (hL.trans hle) ha t ht (.refl _)
    simp only
    generalize f a t.store = o at hrest
    generalize g a t = r at hrest
    cases hrest with
    | value hu hle' hb => exact .value hu (hle.trans hle') hb
    | error hu hle' => exact .error hu (hle.trans hle')
    | exhausted hu hle' => exact .exhausted hu (hle.trans hle')
  | error ht hle => exact .error ht hle
  | exhausted ht hle => exact .exhausted ht hle

/-- What has nothing to do with chains leaves them as they are. -/
theorem lift {x : Eval α} (hmade : ∀ s r t, x s = some (r, t) → s.made ≤ t.made)
    (hx : ∀ L', L.Le L' → ∀ s a t, x s = some (.ok a, t) → P L' a) : Follows L P x (lift x) := by
  intro s hs hL
  unfold ChainEval.lift
  have hsound (r : Except Error α) (t : Store) (h : x s.store = some (r, t)) :
      ChainStore.Sound { s with store := t } := by
    refine ⟨fun p hp => ?_, hs.chains⟩
    obtain ⟨n, hn, heq⟩ := hs.made p hp
    exact ⟨n, Nat.lt_of_lt_of_le hn (hmade _ _ _ h), heq⟩
  cases hxs : x s.store with
  | none => exact .exhausted hs (.refl _)
  | some o =>
    obtain ⟨r, t⟩ := o
    have ht := hsound r t hxs
    cases r with
    | error e => exact .error (t := { s with store := t }) ht (.refl _)
    | ok a => exact .value (t := { s with store := t }) ht (.refl _) (hx _ hL _ _ _ hxs)

theorem raise {c : Condition} : Follows L P (Eval.raise c) (ChainEval.lift (Eval.raise c)) := by
  refine lift (fun s r t h => ?_) fun _ _ s a t h => ?_
  · cases h
    exact Nat.le_refl _
  · cases h

theorem newIdentity :
    Follows L (fun _ _ => True) Eval.newIdentity (ChainEval.lift Eval.newIdentity) := by
  refine lift (fun s r t h => ?_) fun _ _ _ _ _ _ => trivial
  cases h
  exact Nat.le_succ _

theorem ofExcept {r : Except Error α} (h : ∀ L' a, L.Le L' → r = .ok a → P L' a) :
    Follows L P (Eval.ofExcept r) (ChainEval.lift (Eval.ofExcept r)) := by
  cases r with
  | ok a =>
    refine lift (fun s r t hr => ?_) fun L' hL s b t hr => ?_
    · cases hr
      exact Nat.le_refl _
    · cases hr
      exact h L' a hL rfl
  | error e =>
    refine lift (fun s r t hr => ?_) fun _ _ s a t hr => ?_
    · cases hr
      exact Nat.le_refl _
    · cases hr

end Follows

/-- Evaluation makes objects and takes none away. -/
theorem Store.kept_made (n : Nat) : Store.Kept (n ≤ ·.made) :=
  ⟨fun _ h => Nat.le_succ_of_le h, fun _ _ h => h⟩

/-- Applying a value that needs no chain leaves the chains as they are. -/
theorem Follows.applyAt {L : Chains} {depth : Nat} {proc : Value} {args : List Value}
    (h : ∀ L', L.Le L' → Eval.Safe (Value.Chained L') (proc.applyAt depth args)) :
    Follows L Value.Chained (proc.applyAt depth args)
      (ChainEval.lift (proc.applyAt depth args)) := by
  refine .lift (fun s r t hr => Value.applyAt_keeps (Store.kept_made s.made) (Nat.le_refl _) hr) ?_
  intro L' hL s a t hr
  obtain ⟨b, hb, hchained⟩ | ⟨e, he, -⟩ := h L' hL s _ t hr
  · obtain rfl := Except.ok.inj hb
    exact hchained
  · cases he

/-! ## Dictionaries -/

/-- A new dictionary has a chain of its own. -/
theorem keepDict_follows {L : Chains} {c : Value} {es : List (String × Value)} (hc : c.Spells es)
    (hes : Value.ChainedEntries L es) :
    Follows L Value.Chained (Primitive.newDict es) (keepDict c) := by
  intro s hs hL
  have hle : s.chains.Le ((.made s.store.made, c) :: s.chains) := by
    intro i c' hi
    obtain ⟨l₁, l₂, hl, -⟩ := List.lookup_eq_some_iff.1 hi
    obtain ⟨n, hn, heq⟩ := hs.made (i, c') (by rw [hl]; simp)
    obtain rfl : i = .made n := heq
    have hne : (Identity.made n == .made s.store.made) = false := by
      simp only [beq_eq_false_iff_ne, ne_eq, Identity.made.injEq]
      omega
    rw [List.lookup_cons, hne]
    exact hi
  have hnew : ChainStore.Sound ⟨s.store.next, (.made s.store.made, c) :: s.chains⟩ := by
    constructor
    · rintro p (_ | ⟨_, hp⟩)
      · exact ⟨_, Nat.lt_succ_self _, rfl⟩
      · obtain ⟨n, hn, heq⟩ := hs.made p hp
        exact ⟨n, Nat.lt_succ_of_lt hn, heq⟩
    · rintro p (_ | ⟨_, hp⟩)
      · exact hc.isChain
      · exact hs.chains p hp
  unfold keepDict
  rw [hc.shownEntries]
  refine .value hnew hle ⟨⟨c, by simp, hc⟩, ?_⟩
  exact Value.ChainedEntries.mono (hL.trans hle) hes

/-- The scan of a chain of entries finds what the entries have for the key. -/
theorem scan_follows {L : Chains} {c : Value} {es : List (String × Value)} (hc : c.Spells es)
    (hes : Value.ChainedEntries L es) (key : String) :
    Follows L Value.Chained (Primitive.lookupKey es key) (scan key c) := by
  induction hc with
  | nil => exact .raise
  | @cons i j k v t es ht ih =>
    unfold Primitive.lookupKey scan
    rw [List.lookup_cons]
    by_cases hk : k = key
    · subst hk
      simp only [beq_self_eq_true, if_true]
      exact .pure fun L' hL => hes.1.mono hL
    · have hne : (key == k) = false := by simpa using fun h => hk h.symm
      simp only [hne, hk, if_false]
      exact ih hes.2

/-- A dictionary that has a chain is looked up in it. -/
theorem lookup_follows {L : Chains} {i : Identity} {es : List (String × Value)}
    (h : (Value.dict i es).Chained L) (key : String) :
    Follows L Value.Chained (Primitive.lookupKey es key) (chainOf i >>= scan key) := by
  intro s hs hL
  obtain ⟨⟨c, hc, hspells⟩, hes⟩ := h
  rw [ChainEval.bind_apply]
  simp only [chainOf, hL i c hc]
  exact scan_follows hspells hes key s hs hL

/-- A bind puts the new entry before the chain that is kept for the dictionary. -/
theorem bind_follows {L : Chains} {i : Identity} {es : List (String × Value)} {v : Value}
    (h : (Value.dict i es).Chained L) (hv : v.Chained L) (key : String) :
    Follows L Value.Chained (Primitive.newDict ((key, v) :: es))
      (chainOf i >>= fun c =>
        keepDict (.pair (.given 0) (.pair (.given 0) (.symbol key) v) c)) := by
  intro s hs hL
  obtain ⟨⟨c, hc, hspells⟩, hes⟩ := h
  rw [ChainEval.bind_apply]
  simp only [chainOf, hL i c hc]
  exact keepDict_follows (.cons hspells) ⟨hv, hes⟩ s hs hL

/-- Entries that arguments stand for hold what the arguments hold. -/
theorem chainedEntries_of_pairs {L : Chains} {args : List Value} {es : List (String × Value)}
    (h : List.Forall₂ Value.IsPairOf args es) (hargs : ∀ v ∈ args, v.Chained L) :
    Value.ChainedEntries L es := by
  induction h with
  | nil => trivial
  | cons ha _ ih =>
    obtain ⟨i, rfl⟩ := ha
    obtain ⟨hpair, hrest⟩ := List.forall_mem_cons.1 hargs
    exact ⟨hpair.2, ih hrest⟩

/-- **A dictionary is built from its arguments with a chain of entries.** -/
theorem makeDict_follows {L : Chains} {args : List Value} (hargs : ∀ v ∈ args, v.Chained L) :
    Follows L Value.Chained (Primitive.apply .dict args) (makeDict args) := by
  unfold makeDict
  simp only [Primitive.apply]
  cases hes : args.mapM Value.entry? with
  | some es =>
    have hpairs := Value.mapM_entry?_eq_some_iff.1 hes
    exact keepDict_follows (Value.spells_chain _ hpairs) (chainedEntries_of_pairs hpairs hargs)
  | none =>
    have hsafe (L' : Chains) :
        Eval.Safe (Value.Chained L') (Primitive.mismatch .dict args .entries) :=
      Primitive.mismatch_safe .dict args .entries
    have happly : (Value.prim .dict).applyAt 0 args = Primitive.mismatch .dict args .entries := by
      rw [Value.applyAt_prim]
      simp only [Primitive.apply, hes]
    simp only
    rw [← happly] at hsafe ⊢
    exact .applyAt fun L' _ => hsafe L'

/-- A literal is made as the primitive makes it from pairs. -/
theorem Primitive.newDict_eq_apply (entries : List (String × Value)) :
    Primitive.newDict entries = Primitive.apply .dict (Value.pairsOf entries) := by
  simp only [apply, Value.mapM_entry?_eq_some_iff.2 (Value.forall₂_pairsOf entries)]

theorem chained_pairsOf {L : Chains} {entries : List (String × Value)}
    (h : Value.ChainedEntries L entries) : ∀ v ∈ Value.pairsOf entries, v.Chained L := by
  intro v hv
  obtain ⟨p, hp, rfl⟩ := List.mem_map.1 hv
  exact ⟨trivial, Value.chainedEntries_iff.1 h p hp⟩

/-- **Primitives follow on chains.** -/
theorem Primitive.apply_follows (op : Primitive) {L : Chains} {args : List Value}
    (hargs : ∀ v ∈ args, v.Chained L) :
    Follows L Value.Chained (op.apply args) (op.applyOnChains args) := by
  unfold applyOnChains
  split
  · exact makeDict_follows hargs
  · exact lookup_follows (hargs _ (by simp)) _
  · exact bind_follows (hargs _ (by simp)) (hargs _ (by simp)) _
  · next hdict _ hbind =>
    -- what is left needs no chain: the primitive makes no dictionary, or complains
    have hsafe (L' : Chains) (hL : L.Le L') : Eval.Safe (Value.Chained L') (op.apply args) := by
      by_cases h : op = .bind
      · subst h
        simp only [apply]
        split
        · exact absurd rfl (hbind _ _ _ _ rfl)
        · exact mismatch_safe _ _ _
        · exact wrongArity_safe _ 3 _
      · exact apply_passesOn (Value.passedOn_chained L') op (fun h => hdict h) h
          fun v hv => (hargs v hv).mono hL
    rw [← Value.applyAt_prim 0] at hsafe ⊢
    exact .applyAt hsafe

/-! ## Evaluation -/

/-- The values of an environment have chains. -/
def Environment.Chained (L : Chains) (env : Environment) : Prop :=
  Value.ChainedEntries L env.bindings

theorem Environment.chained_empty (L : Chains) : Environment.empty.Chained L := trivial

theorem Environment.Chained.mono {L L' : Chains} (hL : L.Le L') {env : Environment}
    (h : env.Chained L) : env.Chained L' :=
  Value.ChainedEntries.mono hL h

/-- What is bound has its chains. -/
theorem Environment.Chained.lookup_follows {L : Chains} {env : Environment} (h : env.Chained L)
    (x : String) :
    Follows L Value.Chained (Eval.ofCondition (env.lookup x))
      (ChainEval.lift (Eval.ofCondition (env.lookup x))) := by
  refine .ofExcept fun L' v hL hv => ?_
  unfold Environment.lookup at hv
  split at hv
  · next w hw =>
    obtain rfl := Except.ok.inj hv
    obtain ⟨l₁, l₂, hl, -⟩ := List.lookup_eq_some_iff.1 hw
    exact (Value.chainedEntries_iff.1 h (x, w) (by rw [hl]; simp)).mono hL
  · cases hv

/-- Applying values on chains follows applying them on entries. -/
def AppliesAlike (A : Applier) (B : ChainApplier) : Prop :=
  ∀ (L : Chains) proc args, proc.Chained L → (∀ v ∈ args, v.Chained L) →
    Follows L Value.Chained (A proc args) (B proc args)

namespace Expr

variable {A : Applier} {B : ChainApplier}

mutual

/-- **Evaluation follows on chains.** -/
theorem evalWith_follows (hA : AppliesAlike A B) : ∀ {L : Chains} {env : Environment} {e : Expr},
    env.Chained L → e.Chained L →
      Follows L Value.Chained (e.evalWith A env) (e.evalOnChains B env)
  | _, _, .number _, _, _ | _, _, .boolean _, _, _ | _, _, .string _, _, _
  | _, _, .prim _, _, _ => .pure fun _ _ => trivial
  | _, _, .quote _, _, h => .pure fun _ hL => Value.Chained.mono hL h
  | _, _, .var x, henv, _ => henv.lookup_follows x
  | _, _, .lambda ps b, _, h =>
    Follows.newIdentity.bind fun _ id hL _ =>
      .pure (a := Value.closure id ps b) fun _ hL' => ChainedAll.mono (hL.trans hL') h
  | _, _, .cond t c a, henv, ⟨ht, hc, ha⟩ => by
    refine (evalWith_follows hA henv ht).bind fun L' v hL _ => ?_
    split
    · exact evalWith_follows hA (henv.mono hL) (ha.mono hL)
    · exact evalWith_follows hA (henv.mono hL) (hc.mono hL)
  | _, _, .app f es, henv, ⟨hf, hes⟩ =>
    (evalWith_follows hA henv hf).bind fun _ proc hL hproc =>
      (evalEachWith_follows hA (henv.mono hL) (ChainedAll.mono hL hes)).bind
        fun L' args hL' hargs => hA L' proc args (hproc.mono hL') hargs
  | _, _, .dict _, henv, h =>
    (evalEntriesWith_follows hA henv h).bind fun _ entries _ hentries => by
      rw [Primitive.newDict_eq_apply]
      exact makeDict_follows (chained_pairsOf hentries)
  | _, _, .define _ _, _, _ => .raise
  | _, _, .foreign _, _, h => h.elim

/-- Arguments are evaluated on chains as on entries. -/
theorem evalEachWith_follows (hA : AppliesAlike A B) : ∀ {L : Chains} {env : Environment}
    {es : List Expr}, env.Chained L → ChainedAll L es →
      Follows L (fun L' vs => ∀ v ∈ vs, v.Chained L') (evalEachWith A env es)
        (evalEachOnChains B env es)
  | _, _, [], _, _ => .pure fun _ _ _ hv => nomatch hv
  | _, _, _ :: _, henv, ⟨he, hes⟩ =>
    (evalWith_follows hA henv he).bind fun _ _ hL hv =>
      (evalEachWith_follows hA (henv.mono hL) (ChainedAll.mono hL hes)).bind fun _ _ hL' hvs =>
        .pure fun _ hL'' => List.forall_mem_cons.2
          ⟨hv.mono (hL'.trans hL''), fun w hw => (hvs w hw).mono hL''⟩

theorem evalEntriesWith_follows (hA : AppliesAlike A B) : ∀ {L : Chains} {env : Environment}
    {es : List (String × Expr)}, env.Chained L → ChainedEntries L es →
      Follows L Value.ChainedEntries (evalEntriesWith A env es) (evalEntriesOnChains B env es)
  | _, _, [], _, _ => .pure fun _ _ => trivial
  | _, _, (_, _) :: _, henv, ⟨he, hes⟩ =>
    (evalWith_follows hA henv he).bind fun _ _ hL hv =>
      Follows.newIdentity.bind fun _ _ hL' _ =>
        have hL₂ := hL.trans hL'
        (evalEntriesWith_follows hA (henv.mono hL₂) (ChainedEntries.mono hL₂ hes)).bind
          fun _ _ hL'' hvs => .pure fun _ hL₃ =>
            ⟨hv.mono ((hL'.trans hL'').trans hL₃), Value.ChainedEntries.mono hL₃ hvs⟩

end

/-- **Sequences follow on chains.** -/
theorem evalSeqWith_follows (hA : AppliesAlike A B) {L : Chains} {env : Environment}
    {es : List Expr} (henv : env.Chained L) (h : ChainedAll L es) :
    Follows L Value.Chained (evalSeqWith A env es) (evalSeqOnChains B env es) := by
  fun_induction evalSeqWith A env es generalizing L with
  | case1 => exact .raise
  | case2 env x e =>
    simp only [evalSeqOnChains]
    exact (evalWith_follows hA henv (e := e) h.1).bind fun _ _ _ _ => .raise
  | case3 env e he =>
    simp only [evalSeqOnChains]
    exact evalWith_follows hA henv h.1
  | case4 env x e es hes ih =>
    simp only [evalSeqOnChains]
    exact (evalWith_follows hA henv (e := e) h.1).bind fun _ v hL hv =>
      ih v ⟨hv, henv.mono hL⟩ (ChainedAll.mono hL h.2)
  | case5 env e es hes _ he ih =>
    simp only [evalSeqOnChains]
    exact (evalWith_follows hA henv h.1).bind fun _ v hL _ =>
      ih (henv.mono hL) (ChainedAll.mono hL h.2)

end Expr

/-! ## Calls -/

theorem Eval.renameBody_follows {L : Chains} {body : List Expr} (h : Expr.ChainedAll L body) :
    Follows L Expr.ChainedAll (renameBody body) (ChainEval.lift (renameBody body)) := by
  refine .lift (fun s r t hr => ?_) fun L' hL s b t hr => ?_
  · rcases renameBody_cases body s with hs | hs <;> rw [hs] at hr <;> cases hr <;>
      exact Nat.le_refl _
  · rcases renameBody_cases body s with hs | hs <;> rw [hs] at hr <;> cases hr
    exact Expr.ChainedAll.renameAll s.names (Expr.ChainedAll.mono hL h)

/-- Arguments become data with their chains. -/
theorem Value.literals?_follows {L : Chains} {args : List Value}
    (hargs : ∀ v ∈ args, v.Chained L) :
    Follows L Expr.ChainedAll (Eval.ofCondition (literals? args))
      (ChainEval.lift (Eval.ofCondition (literals? args))) := by
  refine .ofExcept fun L' es hL hes => ?_
  cases hl : literals? args with
  | error c =>
    rw [hl] at hes
    cases hes
  | ok es' =>
    rw [hl] at hes
    obtain rfl := Except.ok.inj hes
    exact chained_literals? (fun v hv => (hargs v hv).mono hL) hl

/-- What is no closure is applied on chains as it is on entries. -/
theorem Value.applyAt_follows_of_ne {L : Chains} {proc : Value} {args : List Value}
    (hproc : proc.Chained L) (hargs : ∀ v ∈ args, v.Chained L)
    (hc : ∀ i ps b, proc ≠ .closure i ps b) (depth : Nat) :
    Follows L Chained (proc.applyAt depth args) (proc.applyOnChains depth args) := by
  cases proc with
  | closure i ps b => exact absurd rfl (hc i ps b)
  | prim p =>
    rw [applyAt_prim, applyOnChains]
    exact p.apply_follows hargs
  | dict i es =>
    unfold applyOnChains
    split
    · next key =>
      have happly : (dict i es).applyAt depth [.symbol key] = Primitive.lookupKey es key := by
        cases depth <;> rfl
      rw [happly]
      exact lookup_follows hproc key
    · next hkey =>
      refine .applyAt fun L' _ => ?_
      rw [Simulation.applyAt_dict_of_ne depth i es hkey]
      exact Eval.Safe.raise (by simp [Condition.kind, Condition.runKinds])
  | number | boolean | string | symbol | empty | pair =>
    rw [applyOnChains]
    · refine .applyAt fun L' _ => ?_
      rw [applyAt]
      · exact notAProcedure_safe _
      all_goals simp
    all_goals simp
  | nothing | code | sequence => exact hproc.elim

/-- **Values are applied on chains as they are on entries.** -/
theorem Value.applyAt_follows (depth : Nat) :
    AppliesAlike (applyAt depth) (applyOnChains depth) := by
  induction depth with
  | zero =>
    intro L proc args hproc hargs
    cases proc
    case closure =>
      refine .lift (fun s r t hr => ?_) fun _ _ s a t hr => ?_ <;> cases hr
    all_goals exact applyAt_follows_of_ne hproc hargs (by simp) 0
  | succ depth ih =>
    intro L proc args hproc hargs
    cases proc
    case closure i ps b =>
      rw [applyOnChains, applyAt]
      split
      · refine (Eval.renameBody_follows hproc).bind fun L' renamed hL hrenamed => ?_
        refine (literals?_follows fun v hv => (hargs v hv).mono hL).bind
          fun L'' literals hL' hliterals => ?_
        -- the data in the body and in the literals is data that the run held before
        have hbody := (Expr.ChainedAll.mono hL' hrenamed).substSeq (.ofLists ps hliterals)
        exact Expr.evalSeqWith_follows ih (Environment.chained_empty _) hbody
      · exact .raise
    all_goals exact applyAt_follows_of_ne hproc hargs (by simp) _

/-! ## Programs -/

/-- **A program runs on chains as it runs on entries**, and makes chains of entries only. -/
theorem runOnChains_follows {p : List Expr} (hp : Expr.EveryAll Expr.NodeSound p) (depth : Nat) :
    Ends Value.Chained ⟨default, []⟩ (runProgram depth p) (runOnChains depth p) := by
  have hplaced : Expr.EveryAll Expr.NodeSound (Expr.placeAll 0 p).1 :=
    Expr.EveryAll.place (fun e n h => ⟨Expr.NodeWellFormed.place e n h.1,
      Expr.NodeReadable.place e n h.2⟩) 0 hp
  obtain ⟨names, hnames, -⟩ := exists_ready hplaced
  have hfollows := Expr.evalSeqWith_follows (Value.applyAt_follows depth)
    (Environment.chained_empty []) (Expr.EveryAll.chainedAll [] hplaced)
  have hends := hfollows ⟨.start (.start names), []⟩ ⟨nofun, nofun⟩ (.refl _)
  simp only [runProgram, runOnChains, Eval.reserving, hnames]
  exact hends.of_chains_eq rfl

end Lambdict
