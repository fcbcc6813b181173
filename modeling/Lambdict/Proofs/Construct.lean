import Lambdict.Proofs.Parsed
import Lambdict.Proofs.Simulation.Eval
import Lambdict.Proofs.Sugar

/-!
# Constructed dictionaries

Expanding every dictionary literal into a call of `dict` on pairs does not change what a program
does, and not even how it does it: the two runs go on in lockstep, with the same supply of names and
the same objects made at every moment (`runProgram_construct`).

Three things meet where a closure is called, and expansion goes along with each of them.  Renaming
visits the parts of an expanded literal in the order of the literal, and so draws the same names
(`Expr.rename_expand`).  Substitution puts expanded literals in for parameters
(`Expr.subst_expand`).  And a value that has a literal form still has one when it is expanded
(`Value.literal?_expand`).
-/

namespace Lambdict

/-! ## Substitution -/

namespace Substitution

/-- The substitution with all its replacements expanded. -/
def expand (σ : Substitution) : Substitution :=
  σ.map fun r => (r.1, r.2.expand .construct)

/-- What an expanded substitution puts in for a name is what was put in, expanded. -/
theorem find?_expand (σ : Substitution) (x : String) :
    σ.expand.find? x = (σ.find? x).map (Expr.expand .construct) := by
  induction σ with
  | nil => rfl
  | cons r σ ih =>
    obtain ⟨y, e⟩ := r
    simp only [expand, find?, List.map_cons, List.lookup_cons] at ih ⊢
    cases x == y with
    | true => rfl
    | false => exact ih

theorem expand_filter (σ : Substitution) (f : String → Bool) :
    expand (σ.filter fun r => f r.1) = σ.expand.filter fun r => f r.1 := by
  simp only [expand, List.filter_map]
  rfl

/-- A name is taken out of an expanded substitution as it is out of the substitution. -/
theorem expand_without (σ : Substitution) (x : String) :
    (σ.without x).expand = σ.expand.without x :=
  expand_filter σ fun y => y ≠ x

theorem expand_withoutAll (σ : Substitution) (xs : List String) :
    (σ.withoutAll xs).expand = σ.expand.withoutAll xs :=
  expand_filter σ fun y => y ∉ xs

/-- Expanded arguments make the expanded substitution. -/
theorem expand_ofLists (xs : List String) (es : List Expr) :
    (ofLists xs es).expand = ofLists xs (Expr.expandAll .construct es) := by
  simp only [ofLists, expand, List.map_reverse]
  congr 1
  induction xs generalizing es with
  | nil => rfl
  | cons x xs ih =>
    cases es with
    | nil => rfl
    | cons e es => simp only [Expr.expandAll, List.zip_cons_cons, List.map_cons, ih]

end Substitution

namespace Expr

/-- An expansion is a definition just where the expression is. -/
theorem isDefinition_expand (strategy : Strategy) (e : Expr) :
    (e.expand strategy).isDefinition = e.isDefinition := by
  cases e with
  | app f es =>
    obtain ⟨f', es', h⟩ := exists_expand_app strategy f es
    rw [h]
    rfl
  | _ => rfl

/-- What is no definition leaves the substitution to the rest of the sequence. -/
theorem substSeq_cons_of_not_definition {e : Expr} (h : e.isDefinition = false) (σ : Substitution)
    (es : List Expr) : substSeq σ (e :: es) = e.subst σ :: substSeq σ es := by
  cases e with
  | define => cases h
  | _ => rfl

mutual

/-- **Substitution goes along with expansion**: to put expanded expressions into an expanded one is
to expand the result. -/
theorem subst_expand (σ : Substitution) : ∀ e : Expr,
    (e.expand .construct).subst σ.expand = (e.subst σ).expand .construct
  | .var x => by
    simp only [expand, subst, Substitution.find?_expand]
    cases σ.find? x <;> rfl
  | .dict es => by
    simp only [expand, subst, Desugar.call, substEach_expandEntries σ es]
  | .app f es => by
    simp only [expand_app_construct, subst, subst_expand σ f, substEach_expand σ es]
  | .cond t c a => by
    simp only [expand, subst, subst_expand σ t, subst_expand σ c, subst_expand σ a]
  | .lambda ps b => by
    simp only [expand, subst, ← Substitution.expand_withoutAll, substSeq_expand _ b]
  | .define x e => by simp only [expand, subst, subst_expand σ e]
  | .quote _ | .number _ | .boolean _ | .string _ | .prim _ | .foreign _ => rfl
termination_by structural e => e

theorem substSeq_expand (σ : Substitution) : ∀ es : List Expr,
    substSeq σ.expand (expandAll .construct es) = expandAll .construct (substSeq σ es)
  | [] => rfl
  | e :: es => by
    -- a definition hides its name from the substitution in the rest, on both sides
    by_cases h : e.isDefinition
    · cases e with
      | define x e =>
        have he := subst_expand σ e
        simp only [expandAll, expand, substSeq, ← Substitution.expand_without, he,
          substSeq_expand _ es]
      | _ => cases h
    · have h : e.isDefinition = false := by simpa using h
      have h' := (isDefinition_expand .construct e).trans h
      simp only [expandAll, substSeq_cons_of_not_definition h, substSeq_cons_of_not_definition h',
        subst_expand σ e, substSeq_expand σ es]
termination_by structural es => es

theorem substEach_expand (σ : Substitution) : ∀ es : List Expr,
    substEach σ.expand (expandAll .construct es) = expandAll .construct (substEach σ es)
  | [] => rfl
  | e :: es => by simp only [expandAll, substEach, subst_expand σ e, substEach_expand σ es]
termination_by structural es => es

theorem substEach_expandEntries (σ : Substitution) : ∀ es : List (String × Expr),
    substEach σ.expand (expandEntries .construct es) = expandEntries .construct (substEntries σ es)
  | [] => rfl
  | (k, e) :: es => by
    simp only [expandEntries, substEntries, Desugar.call, substEach, subst, subst_expand σ e,
      substEach_expandEntries σ es]
termination_by structural es => es

end

/-! ## Renaming -/

/-- Variables are their own expansions. -/
theorem expandAll_vars (strategy : Strategy) (xs : List String) :
    expandAll strategy (xs.map .var) = xs.map .var := by
  induction xs with
  | nil => rfl
  | cons x xs ih => simp only [List.map_cons, expandAll, expand, ih]

mutual

/-- **Renaming goes along with expansion**: an expanded expression is renamed to the expanded
result, and the same names are drawn. -/
theorem rename_expand : ∀ (e : Expr) (s : NameSupply),
    (e.expand .construct).rename s = ((e.rename s).1.expand .construct, (e.rename s).2)
  | .lambda ps b, s => by
    -- fresh names are put in as variables, and these expand to themselves
    have hσ (qs : List String) : Substitution.ofLists ps (qs.map .var) =
        (Substitution.ofLists ps (qs.map .var)).expand := by
      rw [Substitution.expand_ofLists, expandAll_vars]
    simp only [expand, rename, renameAll_expand b s]
    rw [hσ, substSeq_expand, ← hσ]
  | .dict es, s => by
    simp only [expand, rename, Desugar.call, renameAll_expandEntries es s]
  | .app f es, s => by
    simp only [expand_app_construct, rename, rename_expand f, renameAll_expand es]
  | .cond t c a, s => by
    simp only [expand, rename, rename_expand t, rename_expand c, rename_expand a]
  | .define x e, s => by simp only [expand, rename, rename_expand e]
  | .quote _, _ | .number _, _ | .boolean _, _ | .string _, _ | .var _, _ | .prim _, _
  | .foreign _, _ => rfl

theorem renameAll_expand : ∀ (es : List Expr) (s : NameSupply),
    renameAll (expandAll .construct es) s =
      (expandAll .construct (renameAll es s).1, (renameAll es s).2)
  | [], _ => rfl
  | e :: es, s => by simp only [expandAll, renameAll, rename_expand e, renameAll_expand es]

theorem renameAll_expandEntries : ∀ (es : List (String × Expr)) (s : NameSupply),
    renameAll (expandEntries .construct es) s =
      (expandEntries .construct (renameEntries es s).1, (renameEntries es s).2)
  | [], _ => rfl
  | (k, e) :: es, s => by
    simp only [expandEntries, renameEntries, Desugar.call, renameAll, rename, rename_expand e,
      renameAll_expandEntries es]

end

end Expr

/-! ## Literals and texts -/

namespace Expr

/-- An expansion is an expression just where what is expanded is one. -/
theorem isProper_expand (strategy : Strategy) (e : Expr) :
    (e.expand strategy).isProper = e.isProper := by
  cases e with
  | app f es =>
    obtain ⟨f', es', h⟩ := exists_expand_app strategy f es
    rw [h]
    rfl
  | _ => rfl

/-- What is no expression is its own expansion. -/
theorem expand_of_not_proper (strategy : Strategy) {e : Expr} (h : e.isProper = false) :
    e.expand strategy = e := by
  cases e with
  | foreign => rfl
  | _ => cases h

/-- The first thing in a sequence that is no expression is the same when it is expanded. -/
theorem find?_not_proper_expand (strategy : Strategy) (es : List Expr) :
    (expandAll strategy es).find? (!·.isProper) = es.find? (!·.isProper) := by
  induction es with
  | nil => rfl
  | cons e es ih =>
    simp only [expandAll, List.find?_cons, isProper_expand]
    cases h : e.isProper with
    | true => exact ih
    | false => exact congrArg some (expand_of_not_proper strategy h)

theorem isEmpty_expandAll (strategy : Strategy) (es : List Expr) :
    (expandAll strategy es).isEmpty = es.isEmpty := by
  cases es <;> rfl

/-- The lambda of an expanded body is made where that of the body is, and is its expansion. -/
theorem lambda?_expandAll (strategy : Strategy) (ps : List String) (b : List Expr) :
    lambda? ps (expandAll strategy b) = (lambda? ps b).map (expand strategy) := by
  simp only [lambda?, find?_not_proper_expand, isEmpty_expandAll]
  cases checkParameters ps (!b.isEmpty) with
  | error _ => rfl
  | ok _ => cases b.find? (!·.isProper) <;> rfl

end Expr

namespace Value

/-- **An expanded value has the expanded literal form**, and none where the value has none. -/
theorem literal?_expand (strategy : Strategy) (v : Value) :
    (v.expand strategy).literal? = v.literal?.map (Expr.expand strategy) := by
  cases v with
  | closure i ps b =>
    simp only [expand, literal?, Expr.lambda?_expandAll]
    cases Expr.lambda? ps b <;> rfl
  | _ => rfl

theorem literals?_expand (strategy : Strategy) (vs : List Value) :
    literals? (vs.map (expand strategy)) = (literals? vs).map (Expr.expandAll strategy) := by
  induction vs with
  | nil => rfl
  | cons v vs ih =>
    simp only [List.map_cons, literals?, literal?_expand, ih]
    cases v.literal? with
    | error _ => rfl
    | ok e => cases literals? vs <;> rfl

end Value

mutual

/-- An expression is written out exactly when its expansion is, since both have the same numbers. -/
theorem Expr.writable_expand : ∀ e : Expr, (e.expand .construct).writable = e.writable
  | .dict es => by
    simp only [Expr.expand, Desugar.call, Expr.writable, Expr.writableAll_expandEntries es,
      Bool.true_and]
  | .app f es => by
    simp only [Expr.expand_app_construct, Expr.writable, Expr.writable_expand f,
      Expr.writableAll_expand es]
  | .cond t c a => by
    simp only [Expr.expand, Expr.writable, Expr.writable_expand t, Expr.writable_expand c,
      Expr.writable_expand a]
  | .lambda ps b => by simp only [Expr.expand, Expr.writable, Expr.writableAll_expand b]
  | .define x e => by simp only [Expr.expand, Expr.writable, Expr.writable_expand e]
  | .quote d => by simp only [Expr.expand, Expr.writable, Value.writable_expand d]
  | .number _ | .boolean _ | .string _ | .var _ | .prim _ | .foreign _ => rfl

theorem Expr.writableAll_expand : ∀ es : List Expr,
    Expr.writableAll (Expr.expandAll .construct es) = Expr.writableAll es
  | [] => rfl
  | e :: es => by
    simp only [Expr.expandAll, Expr.writableAll, Expr.writable_expand e, Expr.writableAll_expand es]

theorem Expr.writableAll_expandEntries : ∀ es : List (String × Expr),
    Expr.writableAll (Expr.expandEntries .construct es) = Expr.writableEntries es
  | [] => rfl
  | (k, e) :: es => by
    simp only [Expr.expandEntries, Expr.writableAll, Expr.writableEntries, Desugar.call,
      Expr.writable, Value.writable, Expr.writable_expand e, Expr.writableAll_expandEntries es,
      Bool.true_and, Bool.and_true]

/-- A value is written out exactly when its expansion is. -/
theorem Value.writable_expand : ∀ v : Value, (v.expand .construct).writable = v.writable
  | .pair _ h t => by
    simp only [Value.expand, Value.writable, Value.writable_expand h, Value.writable_expand t]
  | .closure _ ps b => by simp only [Value.expand, Value.writable, Expr.writableAll_expand b]
  | .dict _ es => by simp only [Value.expand, Value.writable, Value.writableEntries_expand es]
  | .nothing | .number _ | .boolean _ | .string _ | .symbol _ | .empty | .prim _ | .code _ _
  | .sequence _ _ => rfl

theorem Value.writableEntries_expand : ∀ es : List (String × Value),
    Value.writableEntries (Value.expandEntries .construct es) = Value.writableEntries es
  | [] => rfl
  | (k, v) :: es => by
    simp only [Value.expandEntries, Value.writableEntries, Value.writable_expand v,
      Value.writableEntries_expand es]

end

/-! ## The simulation -/

/-- One thing is the other, expanded. -/
def Expands (e e' : Expr) : Prop := e' = e.expand .construct

/-- Two programs of which the one expands the other are told by the expansion. -/
theorem forall₂_expands {es es' : List Expr} :
    List.Forall₂ Expands es es' ↔ es' = Expr.expandAll .construct es := by
  induction es generalizing es' with
  | nil => exact List.forall₂_nil_left_iff
  | cons e es ih =>
    simp only [List.forall₂_cons_left_iff, ih, Expr.expandAll]
    constructor
    · rintro ⟨_, _, rfl, rfl, rfl⟩
      rfl
    · rintro rfl
      exact ⟨_, _, rfl, rfl, rfl⟩

theorem forall₂_pairCalls (es : List (String × Expr)) :
    List.Forall₂ (PairCallRel Expands) es (Expr.expandEntries .construct es) := by
  induction es with
  | nil => exact .nil
  | cons p es ih => exact .cons ⟨_, rfl, rfl⟩ ih

/-- Two lists of entries with expanded values are told by the expansion. -/
theorem forall₂_entryRel {es es' : List (String × Value)} :
    List.Forall₂ (EntryRel fun v v' => v' = v.expand .construct) es es' ↔
      es' = Value.expandEntries .construct es := by
  induction es generalizing es' with
  | nil => exact List.forall₂_nil_left_iff
  | cons p es ih =>
    obtain ⟨k, v⟩ := p
    simp only [List.forall₂_cons_left_iff, ih, Value.expandEntries, EntryRel]
    constructor
    · rintro ⟨⟨_, _⟩, _, ⟨rfl, rfl⟩, rfl, rfl⟩
      rfl
    · rintro rfl
      exact ⟨_, _, ⟨rfl, rfl⟩, rfl, rfl⟩

/-- Closures of which one is the other, expanded. -/
def ClosureExpands (ps : List String) (b : List Expr) (ps' : List String) (b' : List Expr) : Prop :=
  ps' = ps ∧ b' = Expr.expandAll .construct b

/-- Values that are expanded at their surface and inside are expansions. -/
theorem Value.layer_expand {v v' : Value} : v' = v.expand .construct ↔
    Value.Layer True (fun v v' => v' = v.expand .construct) Eq ClosureExpands v v' := by
  constructor
  · rintro rfl
    cases v with
    | pair => exact .pair rfl rfl rfl
    | closure => exact .closure rfl ⟨rfl, rfl⟩
    | dict => exact .dict rfl (forall₂_entryRel.2 rfl)
    | code => exact .code rfl trivial
    | sequence => exact .sequence rfl trivial
    | _ => exact .plain rfl
  · intro h
    cases h with
    | plain hv => cases v <;> first | rfl | cases hv
    | pair hi hh ht => rw [hi, hh, ht, Value.expand]
    | closure hi hc => rw [hi, hc.1, hc.2, Value.expand]
    | dict hi hes => rw [hi, forall₂_entryRel.1 hes, Value.expand]
    | code hi | sequence hi => rw [hi, Value.expand]

/-- An expansion has the shape of the expression but for its literals, and expanded parts. -/
theorem Expr.layer_expand (e : Expr) :
    Expr.Layer False Expands (fun v v' => v' = v.expand .construct) ClosureExpands e
      (e.expand .construct) := by
  cases e with
  | number n => exact .number n
  | boolean b => exact .boolean b
  | string s => exact .string s
  | var x => exact .var x
  | prim p => exact .prim p
  | quote d => exact .quote rfl
  | cond t c a => exact .cond rfl rfl rfl
  | lambda ps b => exact .lambda ⟨rfl, rfl⟩
  | app f es =>
    rw [expand_app_construct]
    exact .app rfl (forall₂_expands.2 rfl)
  | define x e => exact .define x rfl
  | dict es => exact .construct (forall₂_pairCalls es)
  | foreign v => exact .foreign v

/-- **The simulation by expansion.**  The two runs share their store at every moment. -/
def constructSimulation : Simulation where
  World := Unit
  le _ _ := True
  fits _ s s' := s = s'
  same _ := Eq
  value _ v v' := v' = v.expand .construct
  closure _ := ClosureExpands
  expr _ := Expands
  searches := False
  outer := True
  le_refl _ := trivial
  le_trans _ _ := trivial
  value_mono _ h := h
  closure_mono _ h := h
  expr_mono _ h := h
  one_to_one _ hi hj := by rw [hi, hj]
  next := by
    rintro _ s _ rfl
    exact ⟨(), trivial, rfl, rfl⟩
  next_left h := h.elim
  next_right h := h.elim
  value_iff := Value.layer_expand
  writable_eq h := by rw [h, Value.writable_expand]
  expr_cases h := h ▸ Expr.layer_expand _
  arity_eq h := congrArg List.length h.1.symm
  admits_iff := by
    rintro _ _ b _ _ s _ ⟨-, rfl⟩ rfl
    simp only [Store.Admits, Expr.renameAll_expand]
  call := by
    rintro _ ps b _ _ s _ args args' ⟨rfl, rfl⟩ rfl hargs -
    obtain rfl : args' = args.map (Value.expand .construct) := by
      have h : List.Forall₂ Eq (args.map (Value.expand .construct)) args' :=
        List.forall₂_map_left_iff.2 (hargs.imp fun _ _ h => Eq.symm h)
      rw [List.forall₂_eq_eq_eq] at h
      exact h.symm
    refine ⟨(), trivial, ?_, ?_⟩
    · simp only [Store.renaming, Expr.renameAll_expand]
    · -- literals, renaming and substitution all go along with expansion
      rw [Value.literals?_expand, Expr.renameAll_expand]
      cases Value.literals? args with
      | error c => exact .error (.refl _)
      | ok ls =>
        refine .ok (forall₂_expands.2 ?_)
        rw [← Substitution.expand_ofLists, Expr.substSeq_expand]

/-! ## Programs -/

/-- How the ends of two runs compare that went on in lockstep: their results agree up to expansion,
and their stores are the same. -/
def SameEnd (r r' : Except Error Value × Store) : Prop :=
  Agree (fun v v' => v' = v.expand .construct) r.1 r'.1 ∧ r'.2 = r.2

/-- **A program and its expansion run in lockstep**: at each depth both end alike, in the same
store. -/
theorem runProgram_desugar {p : List Expr} (hp : Expr.EveryAll Expr.NodeReadable p) (depth : Nat) :
    Option.Rel SameEnd (runProgram depth p) (runProgram depth (Expr.desugarAll .construct p)) := by
  have hplaced := Expr.EveryAll.place Expr.NodeReadable.place 0 hp
  simp only [runProgram, Expr.placeAll_desugarAll, Eval.reserving, collectNames,
    Expr.addNamesAll_desugar]
  cases Expr.addNamesAll ∅ (Expr.placeAll 0 p).1 with
  | error fault => exact .some ⟨.error (.refl _), rfl⟩
  | ok names =>
    -- nothing in quoted data is to be expanded, so desugaring is expansion
    have hes := forall₂_expands.2 (Expr.expandAll_eq .construct hplaced).symm
    have hruns := constructSimulation.evalSeqAt_follows (W := ()) hes
      Simulation.EnvRel.empty depth
    exact hruns.lockstep id rfl fun _ _ _ _ _ hstore hr => ⟨hr, hstore.symm⟩

/-- **A parsed program and its expansion by *construct* run in lockstep.**  Within every depth both
end or neither does; then they agree in their results, values up to expansion and errors up to their
messages, and leave the same supply of names. -/
theorem runProgram_construct {text : String} {p : List Expr} (h : parseProgram text = .ok p)
    (depth : Nat) :
    Option.Rel SameEnd (runProgram depth p) (runProgram depth (Expr.desugarAll .construct p)) :=
  runProgram_desugar (Expr.EveryAll.imp (fun _ h => h.2) (parseProgram_sound h)) depth

/-- A call that ends with a closure whose body has a dictionary literal. -/
theorem runProgram_construct_curried :
    let p := [.app (.lambda ["x"] [.lambda ["y"] [.dict [("a", .var "x")]]]) [.quote (.symbol "b")]]
    parseProgram "((lambda (x) (lambda (y) (dict (a x)))) 'b)" = .ok p ∧
      (runProgram 1 p).isSome = true ∧
      Option.Rel SameEnd (runProgram 1 p) (runProgram 1 (Expr.desugarAll .construct p)) := by
  intro p
  have h : parseProgram "((lambda (x) (lambda (y) (dict (a x)))) 'b)" = .ok p := rfl
  exact ⟨h, rfl, runProgram_construct h 1⟩

end Lambdict
