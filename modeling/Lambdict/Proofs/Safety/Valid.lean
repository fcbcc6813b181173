import Lambdict.Proofs.Expansion
import Lambdict.Proofs.Fresh

/-!
# Validity

An expression is *valid* when every node in it passes the checks on expressions, and the closures in
its quoted data are valid lambdas again (`Expr.Valid`).  A value is valid when a run can hold it:
no absence, no code and no plain sequence occurs in it, and its closures are valid
(`Value.Valid`).

The two go hand in hand, since a value that becomes an argument becomes part of an expression, and
quoted data becomes a value.  Programs that were read are valid, and so is what the desugarer makes
of them (`Expr.EveryAll.validAll`).  Substitution and renaming, which every call of a closure
performs, keep validity (`Expr.Valid.subst`, `Expr.Valid.rename`), and the literal of a valid value
is valid (`Value.Valid.literal?`).
-/

namespace Lambdict

open Lambdict.Expr (NodeWellFormed)

mutual

/-- **Valid expressions**: every node is well formed, and so are the closures in quoted data. -/
def Expr.Valid : Expr → Prop
  | .cond t c a => NodeWellFormed (.cond t c a) ∧ t.Valid ∧ c.Valid ∧ a.Valid
  | .lambda ps b => NodeWellFormed (.lambda ps b) ∧ Expr.ValidAll b
  | .app f es => NodeWellFormed (.app f es) ∧ f.Valid ∧ Expr.ValidAll es
  | .define x e => NodeWellFormed (.define x e) ∧ e.Valid
  | .quote d => NodeWellFormed (.quote d) ∧ d.Valid
  | .dict es => NodeWellFormed (.dict es) ∧ Expr.ValidEntries es
  | .number n => NodeWellFormed (.number n)
  | .boolean b => NodeWellFormed (.boolean b)
  | .string s => NodeWellFormed (.string s)
  | .var x => NodeWellFormed (.var x)
  | .prim p => NodeWellFormed (.prim p)
  | .foreign v => NodeWellFormed (.foreign v)

/-- The same of several expressions. -/
def Expr.ValidAll : List Expr → Prop
  | [] => True
  | e :: es => e.Valid ∧ Expr.ValidAll es

/-- The same of the values of a dictionary literal. -/
def Expr.ValidEntries : List (String × Expr) → Prop
  | [] => True
  | (_, e) :: es => e.Valid ∧ Expr.ValidEntries es

/-- **Valid values**: what a run of a valid program can hold. -/
def Value.Valid : Value → Prop
  | .number _ | .boolean _ | .string _ | .symbol _ | .empty | .prim _ => True
  | .pair _ h t => h.Valid ∧ t.Valid
  | .closure _ ps b => NodeWellFormed (.lambda ps b) ∧ Expr.ValidAll b
  | .dict _ es => Value.ValidEntries es
  | .nothing | .code _ _ | .sequence _ _ => False

/-- The same of the entries of a dictionary. -/
def Value.ValidEntries : List (String × Value) → Prop
  | [] => True
  | (_, v) :: es => v.Valid ∧ Value.ValidEntries es

end

/-- Data that a text can write is valid. -/
theorem Value.Readable.valid : ∀ {d : Value}, d.Readable → d.Valid
  | .pair _ _ _, h => ⟨valid h.1, valid h.2⟩
  | .number _, _ | .boolean _, _ | .string _, _ | .symbol _, _ | .empty, _ => trivial

/-- Entries are valid when their values are. -/
theorem Value.validEntries_iff {es : List (String × Value)} :
    ValidEntries es ↔ ∀ v ∈ es.map Prod.snd, v.Valid := by
  induction es with
  | nil => simp [ValidEntries]
  | cons p es ih => simp [ValidEntries, ih]

namespace Expr

/-- Several expressions are valid when each is. -/
theorem validAll_iff {es : List Expr} : ValidAll es ↔ ∀ e ∈ es, e.Valid := by
  induction es with
  | nil => simp [ValidAll]
  | cons e es ih => simp [ValidAll, ih]

/-- The entries of a literal are valid when their values are. -/
theorem validEntries_iff {es : List (String × Expr)} :
    ValidEntries es ↔ ValidAll (es.map Prod.snd) := by
  induction es with
  | nil => simp [ValidEntries, ValidAll]
  | cons p es ih => simp [ValidEntries, ValidAll, ih]

/-- A well-formed expression is one. -/
theorem WellFormed.proper {e : Expr} (h : e.WellFormed) : e.isProper = true := by
  cases e with
  | foreign v => exact False.elim h
  | _ => rfl

mutual

/-- Validity asks more than well-formedness, namely of closures in quoted data. -/
theorem Valid.wellFormed : ∀ {e : Expr}, e.Valid → e.WellFormed
  | .cond _ _ _, h => ⟨h.1, h.2.1.wellFormed, h.2.2.1.wellFormed, h.2.2.2.wellFormed⟩
  | .lambda _ _, h => ⟨h.1, ValidAll.wellFormed h.2⟩
  | .app _ _, h => ⟨h.1, h.2.1.wellFormed, ValidAll.wellFormed h.2.2⟩
  | .define _ _, h => ⟨h.1, h.2.wellFormed⟩
  | .quote _, h => h.1
  | .dict _, h => ⟨h.1, ValidEntries.wellFormed h.2⟩
  | .number _, h | .boolean _, h | .string _, h | .var _, h | .prim _, h | .foreign _, h => h

theorem ValidAll.wellFormed : ∀ {es : List Expr}, ValidAll es → EveryAll NodeWellFormed es
  | [], _ => trivial
  | _ :: _, h => ⟨h.1.wellFormed, ValidAll.wellFormed h.2⟩

theorem ValidEntries.wellFormed : ∀ {es : List (String × Expr)}, ValidEntries es →
    EveryEntry NodeWellFormed es
  | [], _ => trivial
  | (_, _) :: _, h => ⟨h.1.wellFormed, ValidEntries.wellFormed h.2⟩

end

/-- A valid expression is one. -/
theorem Valid.proper {e : Expr} (h : e.Valid) : e.isProper = true :=
  h.wellFormed.proper

/-! ## Programs that were read -/

mutual

/-- **A sound expression is valid**: what it quotes is data that a text can write. -/
theorem Every.valid : ∀ {e : Expr}, e.Every NodeSound → e.Valid
  | .cond _ _ _, h => ⟨h.1.1, h.2.1.valid, h.2.2.1.valid, h.2.2.2.valid⟩
  | .lambda _ _, h => ⟨h.1.1, EveryAll.validAll h.2⟩
  | .app _ _, h => ⟨h.1.1, h.2.1.valid, EveryAll.validAll h.2.2⟩
  | .define _ _, h => ⟨h.1.1, h.2.valid⟩
  | .quote _, h => ⟨h.1, Value.Readable.valid h.2⟩
  | .dict _, h => ⟨h.1.1, EveryEntry.validEntries h.2⟩
  | .number _, h | .boolean _, h | .string _, h | .var _, h | .prim _, h | .foreign _, h => h.1

/-- **A program with sound nodes is valid.** -/
theorem EveryAll.validAll : ∀ {es : List Expr}, EveryAll NodeSound es → ValidAll es
  | [], _ => trivial
  | _ :: _, h => ⟨h.1.valid, EveryAll.validAll h.2⟩

theorem EveryEntry.validEntries : ∀ {es : List (String × Expr)}, EveryEntry NodeSound es →
    ValidEntries es
  | [], _ => trivial
  | (_, _) :: _, h => ⟨h.1.valid, EveryEntry.validEntries h.2⟩

end

end Expr

/-! ## Substitution -/

/-- A substitution that puts in no definitions. -/
def Substitution.DefineFree (σ : Substitution) : Prop :=
  ∀ r ∈ σ, r.2.isDefinition = false

/-- A substitution that puts in valid expressions, none of them a definition. -/
def Substitution.Valid (σ : Substitution) : Prop :=
  ∀ r ∈ σ, r.2.Valid ∧ r.2.isDefinition = false

namespace Substitution

theorem DefineFree.filter {σ : Substitution} (h : σ.DefineFree) (f : String × Expr → Bool) :
    Substitution.DefineFree (σ.filter f) :=
  fun r hr => h r (List.mem_of_mem_filter hr)

/-- A valid substitution puts in no definition. -/
theorem Valid.defineFree {σ : Substitution} (h : σ.Valid) : σ.DefineFree :=
  fun r hr => (h r hr).2

theorem Valid.filter {σ : Substitution} (h : σ.Valid) (f : String × Expr → Bool) :
    Substitution.Valid (σ.filter f) :=
  fun r hr => h r (List.mem_of_mem_filter hr)

/-- A valid substitution is valid without a name. -/
theorem Valid.without {σ : Substitution} (h : σ.Valid) (x : String) : (σ.without x).Valid :=
  h.filter _

theorem Valid.withoutAll {σ : Substitution} (h : σ.Valid) (xs : List String) :
    (σ.withoutAll xs).Valid :=
  h.filter _

/-- Valid arguments that are no definitions make a valid substitution. -/
theorem Valid.ofLists (names : List String) {es : List Expr} (hv : Expr.ValidAll es)
    (hd : ∀ e ∈ es, e.isDefinition = false) : (ofLists names es).Valid := by
  intro r hr
  have hmem : r.2 ∈ es := List.of_mem_zip (List.mem_reverse.1 hr) |>.2
  exact ⟨Expr.validAll_iff.1 hv _ hmem, hd _ hmem⟩

/-- What a valid substitution puts in is valid and no definition. -/
theorem Valid.find? {σ : Substitution} (h : σ.Valid) {x : String} {e : Expr}
    (he : σ.find? x = some e) : e.Valid ∧ e.isDefinition = false :=
  h (x, e) (mem_of_find? he)

end Substitution

namespace Expr

variable {σ : Substitution}

/-- Definitions stay definitions where no definition is put in, and nothing else becomes one. -/
theorem isDefinition_subst (hσ : σ.DefineFree) (e : Expr) :
    (e.subst σ).isDefinition = e.isDefinition := by
  cases e with
  | var x =>
    simp only [subst]
    cases h : σ.find? x with
    | none => rfl
    | some e => exact hσ _ (Substitution.mem_of_find? h)
  | _ => rfl

/-- To substitute in arguments is to substitute in each. -/
theorem substEach_eq_map (σ : Substitution) (es : List Expr) :
    substEach σ es = es.map (subst σ) := by
  induction es with
  | nil => rfl
  | cons e es ih => rw [substEach, ih, List.map_cons]

theorem substSeq_ne_nil {es : List Expr} (h : es ≠ []) : substSeq σ es ≠ [] := by
  fun_cases substSeq σ es <;> simp_all

/-- Arguments stay free of definitions where no definition is put in. -/
theorem not_definition_substEach (hσ : σ.DefineFree) {es : List Expr}
    (h : ∀ e ∈ es, e.isDefinition = false) : ∀ e ∈ substEach σ es, e.isDefinition = false := by
  intro e he
  rw [substEach_eq_map] at he
  obtain ⟨d, hd, rfl⟩ := List.mem_map.1 he
  rw [isDefinition_subst hσ]
  exact h d hd

/-- A node that is no variable passes the checks as it did before. -/
theorem NodeWellFormed.subst (hσ : σ.DefineFree) {e : Expr} (hvar : ∀ x, e ≠ .var x)
    (h : NodeWellFormed e) : NodeWellFormed (e.subst σ) := by
  cases e with
  | var x => exact absurd rfl (hvar x)
  | cond t c a =>
    exact ⟨(isDefinition_subst hσ t).trans h.1, (isDefinition_subst hσ c).trans h.2.1,
      (isDefinition_subst hσ a).trans h.2.2⟩
  | lambda ps b => exact ⟨h.1, h.2.1, substSeq_ne_nil h.2.2⟩
  | app f es => exact ⟨(isDefinition_subst hσ f).trans h.1, not_definition_substEach hσ h.2⟩
  | define x e => exact ⟨h.1, (isDefinition_subst hσ e).trans h.2⟩
  | dict es =>
    simp only [Expr.subst, NodeWellFormed, keys_substEntries, values_substEntries]
    exact ⟨h.1, h.2.1, not_definition_substEach hσ h.2.2⟩
  | _ => exact h

mutual

/-- **Substitution keeps validity.** -/
theorem Valid.subst {σ : Substitution} (hσ : σ.Valid) : ∀ {e : Expr}, e.Valid → (e.subst σ).Valid
  | .var x, h => by
    simp only [Expr.subst]
    cases hx : σ.find? x with
    | none => exact h
    | some e => exact (hσ.find? hx).1
  | .cond t c a, h => by
    have hnode := NodeWellFormed.subst hσ.defineFree (by simp) h.1
    exact ⟨hnode, h.2.1.subst hσ, h.2.2.1.subst hσ, h.2.2.2.subst hσ⟩
  | .lambda ps b, h => by
    have hnode := NodeWellFormed.subst hσ.defineFree (by simp) h.1
    exact ⟨hnode, ValidAll.substSeq (hσ.withoutAll ps) h.2⟩
  | .app f es, h => by
    have hnode := NodeWellFormed.subst hσ.defineFree (by simp) h.1
    exact ⟨hnode, h.2.1.subst hσ, ValidAll.substEach hσ h.2.2⟩
  | .define x e, h => by
    have hnode := NodeWellFormed.subst hσ.defineFree (by simp) h.1
    exact ⟨hnode, h.2.subst hσ⟩
  | .dict es, h => by
    have hnode := NodeWellFormed.subst hσ.defineFree (by simp) h.1
    exact ⟨hnode, ValidEntries.substEntries hσ h.2⟩
  | .number _, h | .boolean _, h | .string _, h | .prim _, h | .quote _, h | .foreign _, h => h
termination_by structural e => e

/-- A valid sequence stays valid when a valid substitution is applied. -/
theorem ValidAll.substSeq {σ : Substitution} (hσ : σ.Valid) :
    ∀ {es : List Expr}, ValidAll es → ValidAll (substSeq σ es)
  | [], _ => trivial
  | e :: es, h => by
    have he := h.1.subst hσ
    cases e with
    | define x d => exact ⟨he, ValidAll.substSeq (hσ.without x) h.2⟩
    | _ => exact ⟨he, ValidAll.substSeq hσ h.2⟩
termination_by structural es => es

theorem ValidAll.substEach {σ : Substitution} (hσ : σ.Valid) :
    ∀ {es : List Expr}, ValidAll es → ValidAll (substEach σ es)
  | [], _ => trivial
  | _ :: _, h => ⟨h.1.subst hσ, ValidAll.substEach hσ h.2⟩
termination_by structural es => es

theorem ValidEntries.substEntries {σ : Substitution} (hσ : σ.Valid) :
    ∀ {es : List (String × Expr)}, ValidEntries es → ValidEntries (substEntries σ es)
  | [], _ => trivial
  | (_, _) :: _, h => ⟨h.1.subst hσ, ValidEntries.substEntries hσ h.2⟩
termination_by structural es => es

end

/-! ## Renaming -/

/-- A definition is renamed to a definition, and nothing else is. -/
theorem isDefinition_rename (e : Expr) (s : NameSupply) :
    (e.rename s).1.isDefinition = e.isDefinition := by
  cases e <;> rfl

theorem renameAll_ne_nil {es : List Expr} (s : NameSupply) (h : es ≠ []) :
    (renameAll es s).1 ≠ [] := by
  cases es with
  | nil => exact absurd rfl h
  | cons => simp [renameAll]

/-- No definition comes of renaming what is none. -/
theorem not_definition_renameAll {es : List Expr} (s : NameSupply)
    (h : ∀ e ∈ es, e.isDefinition = false) :
    ∀ e ∈ (renameAll es s).1, e.isDefinition = false := by
  induction es generalizing s with
  | nil => exact h
  | cons e es ih =>
    intro d hd
    rcases List.mem_cons.1 hd with rfl | hd
    · rw [isDefinition_rename]
      exact h e (List.mem_cons_self ..)
    · exact ih _ (fun e he => h e (List.mem_cons_of_mem _ he)) d hd

/-- Fresh names can be parameters, and what refers to them can replace parameters. -/
theorem valid_vars {s t : NameSupply} {xs : List String} (h : s.DrawnAll t xs) :
    ValidAll (xs.map .var) ∧ ∀ e ∈ xs.map Expr.var, e.isDefinition = false := by
  constructor
  · refine validAll_iff.2 fun e he => ?_
    obtain ⟨x, hx, rfl⟩ := List.mem_map.1 he
    exact (h.drawn x hx).ne_empty
  · intro e he
    obtain ⟨x, -, rfl⟩ := List.mem_map.1 he
    rfl

/-- The drawn names make a valid substitution for parameters. -/
theorem valid_ofLists_vars {s t : NameSupply} (ps : List String) {xs : List String}
    (h : s.DrawnAll t xs) : (Substitution.ofLists ps (xs.map .var)).Valid :=
  .ofLists ps (valid_vars h).1 (valid_vars h).2

mutual

/-- **Renaming keeps validity.** -/
theorem Valid.rename : ∀ {e : Expr} (s : NameSupply), e.Valid → (e.rename s).1.Valid
  | .lambda ps b, s, h => by
    have hdrawn := (renameAll b s).2.freshAll_drawn ps
    have hb : ValidAll (renameAll b s).1 := ValidAll.renameAll s h.2
    refine ⟨⟨hdrawn.sound.nonempty, hdrawn.nodup, ?_⟩, ?_⟩
    · exact substSeq_ne_nil (renameAll_ne_nil s h.1.2.2)
    · exact hb.substSeq (valid_ofLists_vars ps hdrawn)
  | .cond t c a, s, h => by
    refine ⟨⟨?_, ?_, ?_⟩, h.2.1.rename _, h.2.2.1.rename _, h.2.2.2.rename _⟩
    · exact (isDefinition_rename t _).trans h.1.1
    · exact (isDefinition_rename c _).trans h.1.2.1
    · exact (isDefinition_rename a _).trans h.1.2.2
  | .app f es, s, h =>
    ⟨⟨(isDefinition_rename f s).trans h.1.1, not_definition_renameAll _ h.1.2⟩, h.2.1.rename _,
      ValidAll.renameAll _ h.2.2⟩
  | .define x e, s, h => ⟨⟨h.1.1, (isDefinition_rename e s).trans h.1.2⟩, h.2.rename s⟩
  | .dict es, s, h => by
    refine ⟨?_, ValidEntries.renameEntries s h.2⟩
    simp only [NodeWellFormed, keys_renameEntries, (values_renameEntries es s).1]
    exact ⟨h.1.1, h.1.2.1, not_definition_renameAll s h.1.2.2⟩
  | .number _, _, h | .boolean _, _, h | .string _, _, h | .var _, _, h | .prim _, _, h
  | .quote _, _, h | .foreign _, _, h => h

/-- A valid sequence is renamed to a valid sequence. -/
theorem ValidAll.renameAll : ∀ {es : List Expr} (s : NameSupply), ValidAll es →
    ValidAll (renameAll es s).1
  | [], _, _ => trivial
  | _ :: _, s, h => ⟨h.1.rename s, ValidAll.renameAll _ h.2⟩

theorem ValidEntries.renameEntries : ∀ {es : List (String × Expr)} (s : NameSupply),
    ValidEntries es → ValidEntries (renameEntries es s).1
  | [], _, _ => trivial
  | (_, _) :: _, s, h => ⟨h.1.rename s, ValidEntries.renameEntries _ h.2⟩

end

/-- A lambda that is well-formed passes the check of its parameters. -/
theorem checkParameters_of_wellFormed {ps : List String} {b : List Expr}
    (h : NodeWellFormed (.lambda ps b)) : checkParameters ps (!b.isEmpty) = .ok () := by
  obtain ⟨hne, hnodup, hb⟩ := h
  have hany : ps.any String.isEmpty = false := by
    rw [List.any_eq_false]
    intro x hx hempty
    rw [String.isEmpty_iff] at hempty
    exact hne (hempty ▸ hx)
  simp [checkParameters, hany, hnodup, hb]

/-- A valid lambda is made again from its parts. -/
theorem Valid.lambda? {ps : List String} {b : List Expr} (h : (Expr.lambda ps b).Valid) :
    Expr.lambda? ps b = .ok (.lambda ps b) := by
  have hfind : b.find? (!·.isProper) = none := by
    refine List.find?_eq_none.2 fun e he => ?_
    simp [(validAll_iff.1 h.2 e he).proper]
  simp only [Expr.lambda?, checkParameters_of_wellFormed h.1, hfind]
  rfl

end Expr

/-! ## Literals -/

/-- **A valid value has a valid literal, or is a dictionary.** -/
theorem Value.Valid.literal? {v : Value} (h : v.Valid) :
    (∃ e, v.literal? = .ok e ∧ e.Valid ∧ e.isDefinition = false) ∨
      v.literal? = .error .dictionaryLiteral := by
  cases v with
  | dict => exact .inr rfl
  | closure id ps b =>
    refine .inl ⟨.lambda ps b, ?_, h, rfl⟩
    simp only [Value.literal?, Expr.Valid.lambda? h]
    rfl
  | number | boolean | string | prim => exact .inl ⟨_, rfl, trivial, rfl⟩
  | symbol | empty | pair => exact .inl ⟨_, rfl, ⟨rfl, h⟩, rfl⟩
  | nothing | code | sequence => exact False.elim h

end Lambdict
