import Lambdict.Proofs.Safety.Valid

/-!
# Rewriting with checks

The functions that rewrite expressions put nodes together without looking at them.  Here each has a
twin that puts every node it makes through the checks on its kind of expression (`Expr.check`), also
the nodes that a later step of the same rewriting takes apart again.  On valid expressions no check
ever fails: the twin gives what the function itself gives (`Expr.Valid.substChecked`,
`Expr.Valid.renameChecked`, `Value.Valid.literalChecked`).  For desugaring it is enough that the
expressions are well formed (`Expr.WellFormed.desugarChecked`).
-/

namespace Lambdict

namespace Expr

/-! ## Checking a node -/

/-- Several values as a sequence. -/
def sequenceOf (vs : List Value) : Value :=
  .sequence (.given 0) vs

/-- **Checks a node**: puts it together again from its parts, which are taken as they are. -/
def check : Expr → Except Error Expr
  | .number n => (numberOf (.number n)).mapError Malformed.toError
  | .boolean b => (booleanOf (.boolean b)).mapError Malformed.toError
  | .string s => (stringOf (.string s)).mapError Malformed.toError
  | .var x => (varOf (.string x)).mapError Malformed.toError
  | .prim p => .ok (.prim p)
  | .cond t c a => (condOf t.toValue c.toValue a.toValue).mapError Malformed.toError
  | .lambda ps b =>
    (lambdaOf (sequenceOf (ps.map .string)) (sequenceOf (b.map toValue))).mapError
      Malformed.toError
  | .app f es => (appOf f.toValue (sequenceOf (es.map toValue))).mapError Malformed.toError
  | .define x e => (defineOf (.string x) e.toValue).mapError Malformed.toError
  | .quote d => (quoteOf d).mapError Malformed.toError
  | .dict es => dictOf (sequenceOf (es.map fun p => sequenceOf [.string p.1, p.2.toValue]))
  | .foreign v => .error (Malformed.unknownExpression v.inspect).toError

example : (Expr.app (.prim .add) [.define "x" (.boolean true)]).check =
    .error (Malformed.defineInside .application).toError := rfl

/-- An expression is found again in the value that holds it. -/
theorem toExpr?_toValue {e : Expr} (h : e.isProper = true) : e.toValue.toExpr? = some e := by
  cases e with
  | foreign v => cases h
  | _ => rfl

/-- An expression passes the check of a place that takes it. -/
theorem expression_toValue {e : Expr} (h : e.isProper = true) (owner : NodeKind)
    {definitions : Bool} (hd : definitions = true ∨ e.isDefinition = false) :
    e.toValue.expression owner definitions = .ok e := by
  simp only [Value.expression, toExpr?_toValue h]
  rcases hd with rfl | hd
  · simp
  · simp [hd]

/-- Whatever a check gives back of each of several parts, it gives back of all. -/
theorem mapM_map_eq_ok {ε α β : Type} {f : β → Except ε α} {g : α → β} {xs : List α}
    (h : ∀ x ∈ xs, f (g x) = .ok x) : (xs.map g).mapM f = .ok xs := by
  induction xs with
  | nil => rfl
  | cons x xs ih =>
    obtain ⟨hx, hxs⟩ := List.forall_mem_cons.1 h
    rw [List.map_cons, List.mapM_cons, hx, ih hxs]
    rfl

/-- Expressions pass the checks of a place that takes them. -/
theorem mapM_expression {es : List Expr} (owner : NodeKind) (definitions : Bool)
    (h : ∀ e ∈ es, e.isProper = true ∧ (definitions = true ∨ e.isDefinition = false)) :
    (es.map toValue).mapM (Value.expression owner definitions) = .ok es :=
  mapM_map_eq_ok fun e he => expression_toValue (h e he).1 owner (h e he).2

theorem name?_string {x : String} (h : x ≠ "") : (Value.string x).name? = some x := by
  simp [Value.name?, h]

/-- Parameters that have a text pass their check. -/
theorem mapM_parameter {ps : List String} (h : "" ∉ ps) :
    (ps.map Value.string).mapM Value.parameter = .ok ps := by
  refine mapM_map_eq_ok fun p hp => ?_
  have hne : p ≠ "" := fun hempty => h (hempty ▸ hp)
  simp only [Value.parameter, name?_string hne]

/-- The entries of a dictionary literal pass their checks after keys that do not come again. -/
theorem literalEntries_ok {es : List (String × Expr)} (seen : List String)
    (hne : "" ∉ es.map Prod.fst) (hnodup : (es.map Prod.fst).Nodup)
    (hseen : ∀ k ∈ es.map Prod.fst, k ∉ seen)
    (hv : ∀ e ∈ es.map Prod.snd, e.isProper = true ∧ e.isDefinition = false) :
    Value.literalEntries seen (es.map fun p => sequenceOf [.string p.1, p.2.toValue]) =
      .ok es := by
  induction es generalizing seen with
  | nil => rfl
  | cons p es ih =>
    obtain ⟨k, e⟩ := p
    simp only [List.map_cons, List.mem_cons, not_or, List.nodup_cons] at hne hnodup
    obtain ⟨hk, hks⟩ := List.forall_mem_cons.1 hseen
    obtain ⟨he, hes⟩ := List.forall_mem_cons.1 hv
    have hentry : Value.literalEntry seen (sequenceOf [.string k, e.toValue]) = .ok (k, e) := by
      have hnew : seen.contains k = false := by simpa using hk
      simp only [Value.literalEntry, sequenceOf, Value.items?, name?_string (Ne.symm hne.1), hnew,
        expression_toValue he.1 .dictionary (.inr he.2)]
      rfl
    have hrest : Value.literalEntries (k :: seen)
        (es.map fun p => sequenceOf [.string p.1, p.2.toValue]) = .ok es := by
      refine ih _ hne.2 hnodup.2 (fun j hj => ?_) hes
      intro hmem
      rcases List.mem_cons.1 hmem with rfl | hmem
      · exact hnodup.1 hj
      · exact hks j hj hmem
    rw [List.map_cons, Value.literalEntries, hentry]
    simp only [bind, Except.bind, hrest]
    rfl

theorem EveryAll.proper {es : List Expr} (h : EveryAll NodeWellFormed es) :
    ∀ e ∈ es, e.isProper = true :=
  fun e he => WellFormed.proper (everyAll_iff.1 h e he)

/-- **The nodes of well-formed expressions pass their checks.** -/
theorem WellFormed.check {e : Expr} (h : e.WellFormed) : e.check = .ok e := by
  cases e with
  | number | boolean | string | prim => rfl
  | foreign v => exact False.elim h
  | var x =>
    have hx : x ≠ "" := h
    simp only [Expr.check, varOf, name?_string hx]
    rfl
  | quote d =>
    have hd : d.isDict = false := h
    cases d <;> first | rfl | cases hd
  | cond t c a =>
    obtain ⟨hnode, ht, hc, ha⟩ := h
    simp only [Expr.check, condOf, expression_toValue (WellFormed.proper ht) _ (.inr hnode.1),
      expression_toValue (WellFormed.proper hc) _ (.inr hnode.2.1),
      expression_toValue (WellFormed.proper ha) _ (.inr hnode.2.2)]
    rfl
  | define x e =>
    obtain ⟨hnode, he⟩ := h
    simp only [Expr.check, defineOf, name?_string hnode.1,
      expression_toValue (WellFormed.proper he) _ (.inr hnode.2)]
    rfl
  | app f es =>
    obtain ⟨hnode, hf, hes⟩ := h
    have hoperands := mapM_expression .application false
      fun e he => ⟨hes.proper e he, .inr (hnode.2 e he)⟩
    simp only [Expr.check, appOf, expression_toValue (WellFormed.proper hf) _ (.inr hnode.1),
      sequenceOf, Value.items, Value.items?]
    simp only [bind, Except.bind, hoperands]
    rfl
  | lambda ps b =>
    have hb := mapM_expression .lambda true fun e he => ⟨h.2.proper e he, .inl rfl⟩
    have hcheck := checkParameters_of_wellFormed h.1
    simp only [Expr.check, lambdaOf, sequenceOf, Value.items, Value.items?]
    simp only [bind, Except.bind, mapM_parameter h.1.1, List.isEmpty_map, hcheck, hb]
    rfl
  | dict es =>
    have hes : EveryAll NodeWellFormed (es.map Prod.snd) := everyEntry_iff.1 h.2
    have hentries := literalEntries_ok [] h.1.1 h.1.2.1 (fun _ _ => List.not_mem_nil)
      fun e he => ⟨hes.proper e he, h.1.2.2 e he⟩
    simp only [Expr.check, dictOf, sequenceOf, Value.items?] at hentries ⊢
    rw [hentries]
    rfl

/-- **A valid expression passes its own checks.** -/
theorem Valid.check {e : Expr} (h : e.Valid) : e.check = .ok e :=
  h.wellFormed.check

/-! ## Substitution -/

mutual

/-- Substitution that checks the nodes it makes. -/
def substChecked (σ : Substitution) : Expr → Except Error Expr
  | .var x => .ok ((σ.find? x).getD (.var x))
  | .cond t c a => do
    let t' ← t.substChecked σ
    let c' ← c.substChecked σ
    let a' ← a.substChecked σ
    (Expr.cond t' c' a').check
  | .lambda ps b => do
    let b' ← substSeqChecked (σ.withoutAll ps) b
    (Expr.lambda ps b').check
  | .app f es => do
    let f' ← f.substChecked σ
    let es' ← substEachChecked σ es
    (Expr.app f' es').check
  | .define x e => do
    let e' ← e.substChecked σ
    (Expr.define x e').check
  | .dict es => do
    let es' ← substEntriesChecked σ es
    (Expr.dict es').check
  | .number n => .ok (.number n)
  | .boolean b => .ok (.boolean b)
  | .string s => .ok (.string s)
  | .prim p => .ok (.prim p)
  | .quote d => .ok (.quote d)
  | .foreign v => .ok (.foreign v)
termination_by structural e => e

/-- The same in a sequence. -/
def substSeqChecked (σ : Substitution) : List Expr → Except Error (List Expr)
  | [] => .ok []
  | .define x e :: es => do
    let e' ← e.substChecked σ
    let d ← (Expr.define x e').check
    let es' ← substSeqChecked (σ.without x) es
    return d :: es'
  | e :: es => do
    let e' ← e.substChecked σ
    let es' ← substSeqChecked σ es
    return e' :: es'
termination_by structural es => es

/-- The same in each of several expressions. -/
def substEachChecked (σ : Substitution) : List Expr → Except Error (List Expr)
  | [] => .ok []
  | e :: es => do
    let e' ← e.substChecked σ
    let es' ← substEachChecked σ es
    return e' :: es'
termination_by structural es => es

/-- The same in the values of a dictionary literal. -/
def substEntriesChecked (σ : Substitution) :
    List (String × Expr) → Except Error (List (String × Expr))
  | [] => .ok []
  | (k, e) :: es => do
    let e' ← e.substChecked σ
    let es' ← substEntriesChecked σ es
    return (k, e') :: es'
termination_by structural es => es

end

mutual

/-- **Substitution in a valid expression makes nodes that pass their checks.** -/
theorem Valid.substChecked {σ : Substitution} (hσ : σ.Valid) : ∀ {e : Expr}, e.Valid →
    e.substChecked σ = .ok (e.subst σ)
  | .cond t c a, h => by
    simp only [Expr.substChecked, h.2.1.substChecked hσ, h.2.2.1.substChecked hσ,
      h.2.2.2.substChecked hσ]
    exact (h.subst hσ).check
  | .lambda ps b, h => by
    simp only [Expr.substChecked, ValidAll.substSeqChecked (hσ.withoutAll ps) h.2]
    exact (h.subst hσ).check
  | .app f es, h => by
    simp only [Expr.substChecked, h.2.1.substChecked hσ, ValidAll.substEachChecked hσ h.2.2]
    exact (h.subst hσ).check
  | .define x e, h => by
    simp only [Expr.substChecked, h.2.substChecked hσ]
    exact (h.subst hσ).check
  | .dict es, h => by
    simp only [Expr.substChecked, ValidEntries.substEntriesChecked hσ h.2]
    exact (h.subst hσ).check
  | .var _, _ | .number _, _ | .boolean _, _ | .string _, _ | .prim _, _ | .quote _, _
  | .foreign _, _ => rfl
termination_by structural e => e

/-- **A substitution in a valid sequence passes all checks.** -/
theorem ValidAll.substSeqChecked {σ : Substitution} (hσ : σ.Valid) : ∀ {es : List Expr},
    ValidAll es → substSeqChecked σ es = .ok (Expr.substSeq σ es)
  | [], _ => rfl
  | .define x e :: es, h => by
    simp only [Expr.substSeqChecked, h.1.2.substChecked hσ]
    have hcheck : (Expr.define x (e.subst σ)).check = _ := (h.1.subst hσ).check
    simp only [bind, Except.bind, hcheck, ValidAll.substSeqChecked (hσ.without x) h.2]
    rfl
  | .number _ :: _, h | .boolean _ :: _, h | .string _ :: _, h | .var _ :: _, h
  | .prim _ :: _, h | .cond .. :: _, h | .lambda .. :: _, h | .app .. :: _, h
  | .quote _ :: _, h | .dict _ :: _, h | .foreign _ :: _, h => by
    simp only [Expr.substSeqChecked, Expr.substSeq, h.1.substChecked hσ,
      ValidAll.substSeqChecked hσ h.2]
    rfl
termination_by structural es => es

theorem ValidAll.substEachChecked {σ : Substitution} (hσ : σ.Valid) : ∀ {es : List Expr},
    ValidAll es → substEachChecked σ es = .ok (Expr.substEach σ es)
  | [], _ => rfl
  | _ :: _, h => by
    simp only [Expr.substEachChecked, h.1.substChecked hσ, ValidAll.substEachChecked hσ h.2]
    rfl
termination_by structural es => es

theorem ValidEntries.substEntriesChecked {σ : Substitution} (hσ : σ.Valid) :
    ∀ {es : List (String × Expr)}, ValidEntries es →
      substEntriesChecked σ es = .ok (Expr.substEntries σ es)
  | [], _ => rfl
  | (_, _) :: _, h => by
    simp only [Expr.substEntriesChecked, h.1.substChecked hσ,
      ValidEntries.substEntriesChecked hσ h.2]
    rfl
termination_by structural es => es

end

/-! ## Renaming -/

/-- Variables with given names, each checked. -/
def varsChecked (xs : List String) : Except Error (List Expr) :=
  (xs.map .var).mapM check

mutual

/-- Renaming that checks the nodes it makes. -/
def renameChecked : Expr → NameSupply → Except Error (Expr × NameSupply)
  | .lambda ps b, s => do
    let (b', s₁) ← renameAllChecked b s
    let (ps', s₂) := s₁.freshAll ps
    let vars ← varsChecked ps'
    let b'' ← substSeqChecked (.ofLists ps vars) b'
    let e ← (Expr.lambda ps' b'').check
    return (e, s₂)
  | .cond t c a, s => do
    let (t', s₁) ← t.renameChecked s
    let (c', s₂) ← c.renameChecked s₁
    let (a', s₃) ← a.renameChecked s₂
    let e ← (Expr.cond t' c' a').check
    return (e, s₃)
  | .app f es, s => do
    let (f', s₁) ← f.renameChecked s
    let (es', s₂) ← renameAllChecked es s₁
    let e ← (Expr.app f' es').check
    return (e, s₂)
  | .define x e, s => do
    let (e', s₁) ← e.renameChecked s
    let d ← (Expr.define x e').check
    return (d, s₁)
  | .dict es, s => do
    let (es', s₁) ← renameEntriesChecked es s
    let e ← (Expr.dict es').check
    return (e, s₁)
  | .number n, s => .ok (.number n, s)
  | .boolean b, s => .ok (.boolean b, s)
  | .string t, s => .ok (.string t, s)
  | .var x, s => .ok (.var x, s)
  | .prim p, s => .ok (.prim p, s)
  | .quote d, s => .ok (.quote d, s)
  | .foreign v, s => .ok (.foreign v, s)

/-- The same of several expressions. -/
def renameAllChecked : List Expr → NameSupply → Except Error (List Expr × NameSupply)
  | [], s => .ok ([], s)
  | e :: es, s => do
    let (e', s₁) ← e.renameChecked s
    let (es', s₂) ← renameAllChecked es s₁
    return (e' :: es', s₂)

/-- The same of the values of a dictionary literal. -/
def renameEntriesChecked :
    List (String × Expr) → NameSupply → Except Error (List (String × Expr) × NameSupply)
  | [], s => .ok ([], s)
  | (k, e) :: es, s => do
    let (e', s₁) ← e.renameChecked s
    let (es', s₂) ← renameEntriesChecked es s₁
    return ((k, e') :: es', s₂)

end

/-- Drawn names pass the checks of variables. -/
theorem varsChecked_drawn {s t : NameSupply} {xs : List String} (h : s.DrawnAll t xs) :
    varsChecked xs = .ok (xs.map .var) := by
  have hcheck : ∀ e ∈ xs.map Expr.var, e.check = .ok e :=
    fun e he => (validAll_iff.1 (valid_vars h).1 e he).check
  have hmap := mapM_map_eq_ok (g := id) hcheck
  rwa [List.map_id] at hmap

mutual

/-- **Renaming a valid expression makes nodes that pass their checks.** -/
theorem Valid.renameChecked : ∀ {e : Expr} (s : NameSupply), e.Valid →
    e.renameChecked s = .ok (e.rename s)
  | .lambda ps b, s, h => by
    -- the renamed body is valid before its variables are replaced
    have hb : ValidAll (Expr.renameAll b s).1 := ValidAll.renameAll s h.2
    have hdrawn := (Expr.renameAll b s).2.freshAll_drawn ps
    have hsubst := hb.substSeqChecked (valid_ofLists_vars ps hdrawn)
    have hcheck := (h.rename s).check
    simp only [Expr.rename] at hcheck
    simp only [Expr.renameChecked, ValidAll.renameAllChecked s h.2]
    simp only [bind, Except.bind, varsChecked_drawn hdrawn, hsubst, hcheck]
    rfl
  | .cond t c a, s, h => by
    have hcheck := (h.rename s).check
    simp only [Expr.rename] at hcheck
    simp only [Expr.renameChecked, h.2.1.renameChecked s]
    simp only [bind, Except.bind, h.2.2.1.renameChecked, h.2.2.2.renameChecked, hcheck]
    rfl
  | .app f es, s, h => by
    have hcheck := (h.rename s).check
    simp only [Expr.rename] at hcheck
    simp only [Expr.renameChecked, h.2.1.renameChecked s]
    simp only [bind, Except.bind, ValidAll.renameAllChecked _ h.2.2, hcheck]
    rfl
  | .define x e, s, h => by
    have hcheck := (h.rename s).check
    simp only [Expr.rename] at hcheck
    simp only [Expr.renameChecked, h.2.renameChecked s]
    simp only [bind, Except.bind, hcheck]
    rfl
  | .dict es, s, h => by
    have hcheck := (h.rename s).check
    simp only [Expr.rename] at hcheck
    simp only [Expr.renameChecked, ValidEntries.renameEntriesChecked s h.2]
    simp only [bind, Except.bind, hcheck]
    rfl
  | .number _, _, _ | .boolean _, _, _ | .string _, _, _ | .var _, _, _ | .prim _, _, _
  | .quote _, _, _ | .foreign _, _, _ => rfl

/-- **Renaming a valid sequence passes all checks.** -/
theorem ValidAll.renameAllChecked : ∀ {es : List Expr} (s : NameSupply), ValidAll es →
    renameAllChecked es s = .ok (Expr.renameAll es s)
  | [], _, _ => rfl
  | _ :: _, s, h => by
    simp only [Expr.renameAllChecked, h.1.renameChecked s]
    simp only [bind, Except.bind, ValidAll.renameAllChecked _ h.2]
    rfl

theorem ValidEntries.renameEntriesChecked : ∀ {es : List (String × Expr)} (s : NameSupply),
    ValidEntries es → renameEntriesChecked es s = .ok (Expr.renameEntries es s)
  | [], _, _ => rfl
  | (_, _) :: _, s, h => by
    simp only [Expr.renameEntriesChecked, h.1.renameChecked s]
    simp only [bind, Except.bind, ValidEntries.renameEntriesChecked _ h.2]
    rfl

end

/-! ## Desugaring -/

mutual

/-- Desugaring that checks the nodes it makes. -/
def desugarChecked (strategy : Strategy) : Expr → Except Error Expr
  | .dict es => do
    let es' ← desugarEntriesChecked strategy es
    (Desugar.call .dict es').check
  | .app (.dict es) [key] =>
    match strategy with
    | .lookup => do
      let es' ← desugarEntriesChecked strategy es
      let entries ← (Desugar.call .list es').check
      let key' ← key.desugarChecked strategy
      let box ← (Desugar.call .list [key']).check
      (Expr.app Desugar.scanner [Desugar.scanner, entries, box]).check
    | .construct => do
      let es' ← desugarEntriesChecked strategy es
      let d ← (Desugar.call .dict es').check
      let key' ← key.desugarChecked strategy
      (Expr.app d [key']).check
  | .app f es => do
    let f' ← f.desugarChecked strategy
    let es' ← desugarAllChecked strategy es
    (Expr.app f' es').check
  | .cond t c a => do
    let t' ← t.desugarChecked strategy
    let c' ← c.desugarChecked strategy
    let a' ← a.desugarChecked strategy
    (Expr.cond t' c' a').check
  | .lambda ps b => do
    let b' ← desugarAllChecked strategy b
    (Expr.lambda ps b').check
  | .define x e => do
    let e' ← e.desugarChecked strategy
    (Expr.define x e').check
  | .number n => .ok (.number n)
  | .boolean b => .ok (.boolean b)
  | .string s => .ok (.string s)
  | .var x => .ok (.var x)
  | .prim p => .ok (.prim p)
  | .quote d => .ok (.quote d)
  | .foreign v => .ok (.foreign v)

/-- The same of several expressions. -/
def desugarAllChecked (strategy : Strategy) : List Expr → Except Error (List Expr)
  | [] => .ok []
  | e :: es => do
    let e' ← e.desugarChecked strategy
    let es' ← desugarAllChecked strategy es
    return e' :: es'

/-- The same of the entries of a dictionary literal. -/
def desugarEntriesChecked (strategy : Strategy) :
    List (String × Expr) → Except Error (List Expr)
  | [] => .ok []
  | (k, e) :: es => do
    let key ← (Expr.quote (.symbol k)).check
    let e' ← e.desugarChecked strategy
    let pair ← (Desugar.call .cons [key, e']).check
    let es' ← desugarEntriesChecked strategy es
    return pair :: es'

end

/-- An application is checked after its parts, unless it is the call of a literal. -/
theorem desugarChecked_app (strategy : Strategy) {f : Expr} {es : List Expr}
    (h : ∀ ds key, f = .dict ds → es ≠ [key]) :
    (Expr.app f es).desugarChecked strategy =
      (do let f' ← f.desugarChecked strategy
          let es' ← desugarAllChecked strategy es
          (Expr.app f' es').check) := by
  rw [desugarChecked]
  exact fun ds key hf hes => h ds key hf hes

mutual

/-- **Where the desugared expression is well formed, desugaring made nodes that pass their
checks.** -/
theorem WellFormed.desugarChecked {strategy : Strategy} : ∀ {e : Expr},
    (e.desugar strategy).WellFormed → e.desugarChecked strategy = .ok (e.desugar strategy)
  | .dict es, h => by
    simp only [Expr.desugarChecked, EveryAll.desugarEntriesChecked h.2.2]
    exact h.check
  | .app f es, h => by
    rcases app_cases f es with ⟨ds, key, rfl, rfl⟩ | hne
    · cases strategy with
      | construct =>
        have hcheck := h.check
        obtain ⟨-, hdict, hkey, -⟩ := h
        simp only [Expr.desugarChecked, EveryAll.desugarEntriesChecked hdict.2.2]
        simp only [bind, Except.bind, WellFormed.check hdict, WellFormed.desugarChecked hkey]
        exact hcheck
      | lookup =>
        have hcheck := h.check
        -- the operands of the search: the scanner again, the list of pairs, the key in its box
        obtain ⟨-, -, -, hpairs, hbox, -⟩ := h
        simp only [Expr.desugarChecked, EveryAll.desugarEntriesChecked hpairs.2.2]
        simp only [bind, Except.bind, WellFormed.check hpairs, WellFormed.check hbox,
          WellFormed.desugarChecked hbox.2.2.1]
        exact hcheck
    · rw [desugarChecked_app strategy hne]
      rw [desugar_app strategy hne] at h ⊢
      simp only [WellFormed.desugarChecked h.2.1, EveryAll.desugarAllChecked h.2.2]
      exact h.check
  | .cond t c a, h => by
    simp only [Expr.desugarChecked, WellFormed.desugarChecked h.2.1,
      WellFormed.desugarChecked h.2.2.1, WellFormed.desugarChecked h.2.2.2]
    exact h.check
  | .lambda ps b, h => by
    simp only [Expr.desugarChecked, EveryAll.desugarAllChecked h.2]
    exact h.check
  | .define x e, h => by
    simp only [Expr.desugarChecked, WellFormed.desugarChecked h.2]
    exact h.check
  | .number _, _ | .boolean _, _ | .string _, _ | .var _, _ | .prim _, _ | .quote _, _
  | .foreign _, _ => rfl

/-- Desugaring passes all checks if what comes of it is well-formed. -/
theorem EveryAll.desugarAllChecked {strategy : Strategy} : ∀ {es : List Expr},
    EveryAll NodeWellFormed (desugarAll strategy es) →
      desugarAllChecked strategy es = .ok (desugarAll strategy es)
  | [], _ => rfl
  | _ :: _, h => by
    simp only [Expr.desugarAllChecked, WellFormed.desugarChecked h.1,
      EveryAll.desugarAllChecked h.2]
    rfl

theorem EveryAll.desugarEntriesChecked {strategy : Strategy} : ∀ {es : List (String × Expr)},
    EveryAll NodeWellFormed (desugarEntries strategy es) →
      desugarEntriesChecked strategy es = .ok (desugarEntries strategy es)
  | [], _ => rfl
  | (k, e) :: es, h => by
    obtain ⟨hpair, hes⟩ := h
    have hcheck := WellFormed.check hpair
    obtain ⟨-, -, hkey, he, -⟩ := hpair
    simp only [Expr.desugarEntriesChecked, WellFormed.check hkey]
    simp only [bind, Except.bind, WellFormed.desugarChecked he, hcheck,
      EveryAll.desugarEntriesChecked hes]
    rfl

end

theorem ValidAll.desugarAllChecked {strategy : Strategy} {es : List Expr}
    (h : ValidAll (desugarAll strategy es)) :
    desugarAllChecked strategy es = .ok (desugarAll strategy es) :=
  EveryAll.desugarAllChecked h.wellFormed

end Expr

/-! ## Literals -/

/-- The literal of a value, with its node checked. -/
def Value.literalChecked (v : Value) : Except Error Expr := do
  let e ← v.literal?.mapError .condition
  e.check

/-- The literals of several values, with their nodes checked. -/
def Value.literalsChecked : List Value → Except Error (List Expr)
  | [] => .ok []
  | v :: vs => do
    let e ← v.literalChecked
    let es ← Value.literalsChecked vs
    return e :: es

/-- The literal of a valid value passes its checks. -/
theorem Value.Valid.literalChecked {v : Value} (h : v.Valid) :
    v.literalChecked = v.literal?.mapError .condition := by
  unfold Value.literalChecked
  rcases h.literal? with ⟨e, he, hvalid, -⟩ | he
  · rw [he]
    exact hvalid.check
  · rw [he]
    rfl

/-- **The literals of valid values pass their checks.** -/
theorem Value.literalsChecked_eq {vs : List Value} (h : ∀ v ∈ vs, v.Valid) :
    literalsChecked vs = (literals? vs).mapError .condition := by
  induction vs with
  | nil => rfl
  | cons v vs ih =>
    obtain ⟨hv, hvs⟩ := List.forall_mem_cons.1 h
    rw [literalsChecked, hv.literalChecked, ih hvs, literals?]
    cases v.literal? with
    | error c => rfl
    | ok e => cases literals? vs <;> rfl

end Lambdict
