import Lambdict.Proofs.Matching.Substitution
import Lambdict.Proofs.Safety.Valid

/-!
# Open names and substitution

The *open* names of an expression are those that it refers to, and that neither a lambda around the
reference binds nor a definition before it in its sequence (`Expr.openNames`).  They are what a
substitution can reach: two substitutions that do the same to the open names of a sequence do the
same to the sequence (`Expr.substSeq_congr`).  So a substitution that replaces none of them leaves
the sequence as it is, and a *closed* expression, which has no open name, stays as it is under every
substitution.

From this follow the laws of substitution (`substituteAll_laws`).  Closed expressions can be put in
one after another or all at once, in any order (`Expr.substSeq_substSeq`).  A name that has been
replaced is open afterwards only in what was put in (`Expr.openNamesSeq_substSeq`).  Nothing that is
put in may be a definition, since in a sequence that would bind its name in the rest.
-/

namespace Lambdict

namespace Expr

/-! ## Open names -/

mutual

/-- **The open names of an expression**: what it refers to, and no lambda around the reference
binds, nor a definition before it in its sequence.  A definition does not bind its name in its own
value. -/
def openNames : Expr → List String
  | .var x => [x]
  | .cond t c a => t.openNames ++ c.openNames ++ a.openNames
  | .lambda ps b => (openNamesSeq b).filter fun x => x ∉ ps
  | .app f es => f.openNames ++ openNamesEach es
  | .define _ e => e.openNames
  | .dict es => openNamesEntries es
  | .number _ | .boolean _ | .string _ | .prim _ | .quote _ | .foreign _ => []

/-- The open names of a sequence. -/
def openNamesSeq : List Expr → List String
  | [] => []
  | .define x e :: es => e.openNames ++ (openNamesSeq es).filter fun y => y ≠ x
  | e :: es => e.openNames ++ openNamesSeq es

/-- The open names of several expressions. -/
def openNamesEach : List Expr → List String
  | [] => []
  | e :: es => e.openNames ++ openNamesEach es

/-- The open names of the values of a dictionary literal. -/
def openNamesEntries : List (String × Expr) → List String
  | [] => []
  | (_, e) :: es => e.openNames ++ openNamesEntries es

end

example : openNamesSeq [.define "x" (.var "x"), .lambda ["y"] [.app (.var "x") [.var "y"]]] =
    ["x"] := rfl

/-- A name is open in a sequence if it is open in the first element, or further on and not defined
there. -/
theorem mem_openNamesSeq_cons {x : String} {e : Expr} {es : List Expr} :
    x ∈ openNamesSeq (e :: es) ↔ x ∈ e.openNames ∨ x ∈ openNamesSeq es ∧ ∀ d, e ≠ .define x d := by
  cases e with
  | define y d =>
    simp only [openNamesSeq, openNames, List.mem_append, List.mem_filter, decide_eq_true_eq]
    refine or_congr_right (and_congr_right fun _ => ?_)
    constructor
    · rintro hne d' heq
      exact hne (define.inj heq).1.symm
    · rintro hne rfl
      exact hne d rfl
  | _ => simp [openNamesSeq]

theorem openNamesSeq_cons_of_not_definition {e : Expr} (h : e.isDefinition = false)
    (es : List Expr) : openNamesSeq (e :: es) = e.openNames ++ openNamesSeq es := by
  cases e with
  | define => cases h
  | _ => rfl

end Expr

namespace Substitution

/-- **Closed**: all that is put in is closed, and none of it is a definition. -/
structure Closed (σ : Substitution) : Prop where
  defineFree : σ.DefineFree
  closed : ∀ r ∈ σ, r.2.openNames = []

variable {σ τ : Substitution}

/-- A definition takes replacements away and adds none. -/
theorem mem_of_mem_after {e : Expr} {r : String × Expr} (h : r ∈ σ.after e) : r ∈ σ := by
  cases e with
  | define x d => exact List.mem_of_mem_filter h
  | _ => exact h

/-- A closed substitution is closed without some names. -/
theorem Closed.withoutAll (h : σ.Closed) (xs : List String) : (σ.withoutAll xs).Closed :=
  ⟨h.defineFree.filter _, fun r hr => h.closed r (List.mem_of_mem_filter hr)⟩

theorem Closed.after (h : σ.Closed) (e : Expr) : (σ.after e).Closed :=
  ⟨fun r hr => h.defineFree r (mem_of_mem_after hr),
    fun r hr => h.closed r (mem_of_mem_after hr)⟩

/-- Closed arguments make a closed substitution. -/
theorem Closed.ofLists (xs : List String) {as : List Expr}
    (h : ∀ a ∈ as, a.openNames = [] ∧ a.isDefinition = false) : (ofLists xs as).Closed := by
  have hmem : ∀ r ∈ Substitution.ofLists xs as, r.2 ∈ as :=
    fun r hr => (List.of_mem_zip (List.mem_reverse.1 hr)).2
  exact ⟨fun r hr => (h _ (hmem r hr)).2, fun r hr => (h _ (hmem r hr)).1⟩

/-! ## What is replaced -/

/-- Of two replacements of one name the first is taken. -/
theorem find?_append (x : String) : (σ ++ τ).find? x = (σ.find? x).or (τ.find? x) :=
  List.lookup_append

/-- Substitutions that replace different names may change places. -/
theorem find?_append_comm {x : String} (h : σ.find? x = none ∨ τ.find? x = none) :
    Substitution.find? (σ ++ τ) x = Substitution.find? (τ ++ σ) x := by
  rw [find?_append, find?_append]
  rcases h with h | h <;> simp [h]

theorem withoutAll_append (xs : List String) :
    Substitution.withoutAll (σ ++ τ) xs = σ.withoutAll xs ++ τ.withoutAll xs :=
  List.filter_append ..

theorem after_append (e : Expr) : Substitution.after (σ ++ τ) e = σ.after e ++ τ.after e := by
  cases e with
  | define x d => exact List.filter_append ..
  | _ => rfl

theorem find?_after_define (σ : Substitution) (x : String) (d : Expr) :
    (σ.after (.define x d)).find? x = none := by
  rw [after, without_eq]
  exact find?_withoutAll_of_mem (List.mem_singleton_self x) σ

theorem find?_after_of_ne {e : Expr} {x : String} (h : ∀ d, e ≠ .define x d) (σ : Substitution) :
    (σ.after e).find? x = σ.find? x := by
  cases e with
  | define y d =>
    rw [after, without_eq]
    refine find?_withoutAll_of_not_mem ?_ σ
    rw [List.mem_singleton]
    rintro rfl
    exact h d rfl
  | _ => rfl

/-- A definition is still one when something is put into it, and binds the same name. -/
theorem after_subst (hσ : σ.DefineFree) (τ : Substitution) (e : Expr) :
    τ.after (e.subst σ) = τ.after e := by
  cases e with
  | var x =>
    rw [Expr.subst]
    cases hx : σ.find? x with
    | none => rfl
    | some a =>
      have ha := hσ _ (mem_of_find? hx)
      cases a with
      | define => cases ha
      | _ => rfl
  | _ => rfl

/-- All parameters are replaced, and nothing else. -/
theorem find?_ofLists_eq_none_iff {xs : List String} {as : List Expr}
    (h : xs.length = as.length) {x : String} : (ofLists xs as).find? x = none ↔ x ∉ xs := by
  refine ⟨fun hnone hx => ?_, fun hx => find?_ofLists_of_not_mem hx as⟩
  rw [← List.map_fst_zip (Nat.le_of_eq h)] at hx
  obtain ⟨r, hr, rfl⟩ := List.mem_map.1 hx
  have hne := List.lookup_eq_none_iff.1 hnone r (List.mem_reverse.2 hr)
  simp at hne

/-- Parameters can be replaced in two parts. -/
theorem ofLists_append {xs ys : List String} {as bs : List Expr} (h : xs.length = as.length) :
    ofLists (xs ++ ys) (as ++ bs) = ofLists ys bs ++ ofLists xs as := by
  rw [ofLists, List.zip_append h, List.reverse_append]
  rfl

end Substitution

namespace Expr

/-! ## Only open names are replaced -/

mutual

/-- **Only what is put in for open names matters.** -/
theorem subst_congr : ∀ {e : Expr} {σ τ : Substitution},
    (∀ x ∈ e.openNames, σ.find? x = τ.find? x) → e.subst σ = e.subst τ
  | .var x, σ, τ, h => by rw [subst, subst, h x (List.mem_singleton_self x)]
  | .cond t c a, σ, τ, h => by
    obtain ⟨htc, ha⟩ := List.forall_mem_append.1 h
    obtain ⟨ht, hc⟩ := List.forall_mem_append.1 htc
    rw [subst, subst, subst_congr ht, subst_congr hc, subst_congr ha]
  | .lambda ps b, σ, τ, h => by
    have hinner : ∀ x ∈ openNamesSeq b, (σ.withoutAll ps).find? x = (τ.withoutAll ps).find? x := by
      intro x hx
      by_cases hps : x ∈ ps
      · rw [Substitution.find?_withoutAll_of_mem hps, Substitution.find?_withoutAll_of_mem hps]
      · rw [Substitution.find?_withoutAll_of_not_mem hps,
          Substitution.find?_withoutAll_of_not_mem hps]
        exact h x (List.mem_filter.2 ⟨hx, by simpa using hps⟩)
    rw [subst, subst, substSeq_congr hinner]
  | .app f es, σ, τ, h => by
    obtain ⟨hf, hes⟩ := List.forall_mem_append.1 h
    rw [subst, subst, subst_congr hf, substEach_congr hes]
  | .define x e, σ, τ, h => by
    have he : ∀ y ∈ e.openNames, σ.find? y = τ.find? y := h
    rw [subst, subst, subst_congr he]
  | .dict es, σ, τ, h => by rw [subst, subst, substEntries_congr h]
  | .number _, _, _, _ | .boolean _, _, _, _ | .string _, _, _, _ | .prim _, _, _, _
  | .quote _, _, _, _ | .foreign _, _, _, _ => rfl
termination_by structural e => e

/-- **Substitutions that do the same to the open names of a sequence do the same to it.** -/
theorem substSeq_congr : ∀ {es : List Expr} {σ τ : Substitution},
    (∀ x ∈ openNamesSeq es, σ.find? x = τ.find? x) → substSeq σ es = substSeq τ es
  | [], _, _, _ => rfl
  | e :: es, σ, τ, h => by
    have he : ∀ x ∈ e.openNames, σ.find? x = τ.find? x :=
      fun x hx => h x (mem_openNamesSeq_cons.2 (.inl hx))
    have hes : ∀ x ∈ openNamesSeq es, (σ.after e).find? x = (τ.after e).find? x := by
      intro x hx
      by_cases hdef : ∃ d, e = .define x d
      · obtain ⟨d, rfl⟩ := hdef
        rw [Substitution.find?_after_define, Substitution.find?_after_define]
      · have hne : ∀ d, e ≠ .define x d := fun d hd => hdef ⟨d, hd⟩
        rw [Substitution.find?_after_of_ne hne, Substitution.find?_after_of_ne hne]
        exact h x (mem_openNamesSeq_cons.2 (.inr ⟨hx, hne⟩))
    rw [substSeq_cons, substSeq_cons, subst_congr he, substSeq_congr hes]
termination_by structural es => es

theorem substEach_congr : ∀ {es : List Expr} {σ τ : Substitution},
    (∀ x ∈ openNamesEach es, σ.find? x = τ.find? x) → substEach σ es = substEach τ es
  | [], _, _, _ => rfl
  | e :: es, σ, τ, h => by
    obtain ⟨he, hes⟩ := List.forall_mem_append.1 h
    rw [substEach, substEach, subst_congr he, substEach_congr hes]
termination_by structural es => es

theorem substEntries_congr : ∀ {es : List (String × Expr)} {σ τ : Substitution},
    (∀ x ∈ openNamesEntries es, σ.find? x = τ.find? x) → substEntries σ es = substEntries τ es
  | [], _, _, _ => rfl
  | (k, e) :: es, σ, τ, h => by
    obtain ⟨he, hes⟩ := List.forall_mem_append.1 h
    rw [substEntries, substEntries, subst_congr he, substEntries_congr hes]
termination_by structural es => es

end

mutual

/-- A substitution that replaces no name changes nothing. -/
theorem subst_nil : ∀ e : Expr, e.subst [] = e
  | .var _ => rfl
  | .cond t c a => by rw [subst, subst_nil t, subst_nil c, subst_nil a]
  | .lambda ps b => congrArg (lambda ps) (substSeq_nil b)
  | .app f es => by rw [subst, subst_nil f, substEach_nil es]
  | .define x e => congrArg (define x) (subst_nil e)
  | .dict es => congrArg dict (substEntries_nil es)
  | .number _ | .boolean _ | .string _ | .prim _ | .quote _ | .foreign _ => rfl
termination_by structural e => e

theorem substSeq_nil : ∀ es : List Expr, substSeq [] es = es
  | [] => rfl
  | e :: es => by
    have hafter : Substitution.after [] e = [] := by cases e <;> rfl
    rw [substSeq_cons, hafter, subst_nil e, substSeq_nil es]
termination_by structural es => es

theorem substEach_nil : ∀ es : List Expr, substEach [] es = es
  | [] => rfl
  | e :: es => by rw [substEach, subst_nil e, substEach_nil es]
termination_by structural es => es

theorem substEntries_nil : ∀ es : List (String × Expr), substEntries [] es = es
  | [] => rfl
  | (k, e) :: es => by rw [substEntries, subst_nil e, substEntries_nil es]
termination_by structural es => es

end

/-- A closed expression is left as it is. -/
theorem subst_of_closed {e : Expr} (h : e.openNames = []) (σ : Substitution) : e.subst σ = e := by
  have hsame : ∀ x ∈ e.openNames, σ.find? x = Substitution.find? [] x := by
    intro x hx
    rw [h] at hx
    exact absurd hx List.not_mem_nil
  rw [subst_congr hsame, subst_nil]

/-- **What a substitution does not replace stays**: a sequence none of whose open names is replaced
is left as it is. -/
theorem substSeq_of_not_open {es : List Expr} {σ : Substitution}
    (h : ∀ x ∈ openNamesSeq es, σ.find? x = none) : substSeq σ es = es := by
  have hsame : ∀ x ∈ openNamesSeq es, σ.find? x = Substitution.find? [] x := h
  rw [substSeq_congr hsame, substSeq_nil]

/-! ## One substitution after another -/

mutual

/-- **Two substitutions are one**, if what the first puts in is closed. -/
theorem subst_subst : ∀ (e : Expr) {σ : Substitution}, σ.Closed → ∀ τ : Substitution,
    (e.subst σ).subst τ = e.subst (σ ++ τ)
  | .var x, σ, hσ, τ => by
    rw [subst, subst, Substitution.find?_append]
    cases hx : σ.find? x with
    | none => rfl
    | some a => exact subst_of_closed (hσ.closed _ (Substitution.mem_of_find? hx)) τ
  | .cond t c a, σ, hσ, τ => by
    rw [subst, subst, subst, subst_subst t hσ, subst_subst c hσ, subst_subst a hσ]
  | .lambda ps b, σ, hσ, τ => by
    rw [subst, subst, subst, substSeq_substSeq b (hσ.withoutAll ps),
      Substitution.withoutAll_append]
  | .app f es, σ, hσ, τ => by
    rw [subst, subst, subst, subst_subst f hσ, substEach_substEach es hσ]
  | .define x e, σ, hσ, τ => by rw [subst, subst, subst, subst_subst e hσ]
  | .dict es, σ, hσ, τ => by rw [subst, subst, subst, substEntries_substEntries es hσ]
  | .number _, _, _, _ | .boolean _, _, _, _ | .string _, _, _, _ | .prim _, _, _, _
  | .quote _, _, _, _ | .foreign _, _, _, _ => rfl
termination_by structural e => e

/-- **A closed substitution and another after it are one substitution.** -/
theorem substSeq_substSeq : ∀ (es : List Expr) {σ : Substitution}, σ.Closed →
    ∀ τ : Substitution, substSeq τ (substSeq σ es) = substSeq (σ ++ τ) es
  | [], _, _, _ => rfl
  | e :: es, σ, hσ, τ => by
    rw [substSeq_cons, substSeq_cons, substSeq_cons, Substitution.after_subst hσ.defineFree,
      Substitution.after_append, subst_subst e hσ, substSeq_substSeq es (hσ.after e)]
termination_by structural es => es

theorem substEach_substEach : ∀ (es : List Expr) {σ : Substitution}, σ.Closed →
    ∀ τ : Substitution, substEach τ (substEach σ es) = substEach (σ ++ τ) es
  | [], _, _, _ => rfl
  | e :: es, σ, hσ, τ => by
    rw [substEach, substEach, substEach, subst_subst e hσ, substEach_substEach es hσ]
termination_by structural es => es

theorem substEntries_substEntries : ∀ (es : List (String × Expr)) {σ : Substitution},
    σ.Closed → ∀ τ : Substitution, substEntries τ (substEntries σ es) = substEntries (σ ++ τ) es
  | [], _, _, _ => rfl
  | (k, e) :: es, σ, hσ, τ => by
    rw [substEntries, substEntries, substEntries, subst_subst e hσ,
      substEntries_substEntries es hσ]
termination_by structural es => es

end

/-! ## Open names after a substitution -/

/-- An open name of what a substitution gives: it was open before and is not replaced, or it is open
in something that is put in. -/
def OpenAfter (σ : Substitution) (before : List String) (x : String) : Prop :=
  (x ∈ before ∧ σ.find? x = none) ∨ ∃ r ∈ σ, x ∈ r.2.openNames

/-- More open names before leave more open names after. -/
theorem OpenAfter.imp {σ : Substitution} {xs ys : List String} {x : String}
    (h : OpenAfter σ xs x) (hsub : x ∈ xs → x ∈ ys) : OpenAfter σ ys x :=
  h.imp_left fun hx => ⟨hsub hx.1, hx.2⟩

mutual

/-- **The open names after a substitution** are those that were not replaced and those that were put
in. -/
theorem openNames_subst : ∀ {e : Expr} {σ : Substitution} {x : String},
    x ∈ (e.subst σ).openNames → OpenAfter σ e.openNames x
  | .var y, σ, x, hx => by
    rw [subst] at hx
    cases hy : σ.find? y with
    | none =>
      rw [hy] at hx
      obtain rfl := List.mem_singleton.1 hx
      exact .inl ⟨List.mem_singleton_self x, hy⟩
    | some a =>
      rw [hy] at hx
      exact .inr ⟨(y, a), Substitution.mem_of_find? hy, hx⟩
  | .cond t c a, σ, x, hx => by
    simp only [subst, openNames, List.mem_append] at hx
    rcases hx with (hx | hx) | hx
    · exact (openNames_subst hx).imp fun h => by simp [openNames, h]
    · exact (openNames_subst hx).imp fun h => by simp [openNames, h]
    · exact (openNames_subst hx).imp fun h => by simp [openNames, h]
  | .lambda ps b, σ, x, hx => by
    obtain ⟨hx, hps⟩ := List.mem_filter.1 hx
    have hps : x ∉ ps := by simpa using hps
    rcases openNamesSeq_substSeq hx with ⟨hb, hnone⟩ | ⟨r, hr, hxr⟩
    · rw [Substitution.find?_withoutAll_of_not_mem hps] at hnone
      exact .inl ⟨List.mem_filter.2 ⟨hb, by simpa using hps⟩, hnone⟩
    · exact .inr ⟨r, List.mem_of_mem_filter hr, hxr⟩
  | .app f es, σ, x, hx => by
    rcases List.mem_append.1 hx with hx | hx
    · exact (openNames_subst hx).imp (List.mem_append_left _)
    · exact (openNamesEach_substEach hx).imp (List.mem_append_right _)
  | .define y e, σ, x, hx => openNames_subst (e := e) hx
  | .dict es, σ, x, hx => by
    have hx : x ∈ openNamesEntries (substEntries σ es) := hx
    exact openNamesEntries_substEntries hx
  | .number _, _, _, hx | .boolean _, _, _, hx | .string _, _, _, hx | .prim _, _, _, hx
  | .quote _, _, _, hx | .foreign _, _, _, hx => nomatch hx
termination_by structural e => e

/-- **The open names of a sequence after a substitution.** -/
theorem openNamesSeq_substSeq : ∀ {es : List Expr} {σ : Substitution} {x : String},
    x ∈ openNamesSeq (substSeq σ es) → OpenAfter σ (openNamesSeq es) x
  | [], _, _, hx => nomatch hx
  | e :: es, σ, x, hx => by
    rw [substSeq_cons, mem_openNamesSeq_cons] at hx
    rcases hx with hx | ⟨hx, hne⟩
    · exact (openNames_subst hx).imp fun h => mem_openNamesSeq_cons.2 (.inl h)
    · -- what is no definition of the name now was none before
      have hne : ∀ d, e ≠ .define x d := by
        rintro d rfl
        exact hne (d.subst σ) rfl
      rcases openNamesSeq_substSeq hx with ⟨hes, hnone⟩ | ⟨r, hr, hxr⟩
      · rw [Substitution.find?_after_of_ne hne] at hnone
        exact .inl ⟨mem_openNamesSeq_cons.2 (.inr ⟨hes, hne⟩), hnone⟩
      · exact .inr ⟨r, Substitution.mem_of_mem_after hr, hxr⟩
termination_by structural es => es

theorem openNamesEach_substEach : ∀ {es : List Expr} {σ : Substitution} {x : String},
    x ∈ openNamesEach (substEach σ es) → OpenAfter σ (openNamesEach es) x
  | [], _, _, hx => nomatch hx
  | e :: es, σ, x, hx => by
    rcases List.mem_append.1 hx with hx | hx
    · exact (openNames_subst hx).imp (List.mem_append_left _)
    · exact (openNamesEach_substEach hx).imp (List.mem_append_right _)
termination_by structural es => es

theorem openNamesEntries_substEntries : ∀ {es : List (String × Expr)} {σ : Substitution}
    {x : String}, x ∈ openNamesEntries (substEntries σ es) → OpenAfter σ (openNamesEntries es) x
  | [], _, _, hx => nomatch hx
  | (k, e) :: es, σ, x, hx => by
    rcases List.mem_append.1 hx with hx | hx
    · exact (openNames_subst hx).imp (List.mem_append_left _)
    · exact (openNamesEntries_substEntries hx).imp (List.mem_append_right _)
termination_by structural es => es

end

/-! ## Well-formed results -/

mutual

/-- **A substitution keeps an expression well-formed**, if what it puts in is well-formed and no
definition. -/
theorem WellFormed.subst : ∀ {e : Expr} {σ : Substitution},
    (∀ r ∈ σ, r.2.WellFormed ∧ r.2.isDefinition = false) → e.WellFormed → (e.subst σ).WellFormed
  | .var x, σ, hσ, h => by
    rw [Expr.subst]
    cases hx : σ.find? x with
    | none => exact h
    | some a => exact (hσ _ (Substitution.mem_of_find? hx)).1
  | .cond t c a, σ, hσ, h => by
    have hnode := NodeWellFormed.subst (fun r hr => (hσ r hr).2) (by simp) h.1
    exact ⟨hnode, WellFormed.subst hσ h.2.1, WellFormed.subst hσ h.2.2.1,
      WellFormed.subst hσ h.2.2.2⟩
  | .lambda ps b, σ, hσ, h => by
    have hnode := NodeWellFormed.subst (fun r hr => (hσ r hr).2) (by simp) h.1
    exact ⟨hnode, wellFormed_substSeq (fun r hr => hσ r (List.mem_of_mem_filter hr)) h.2⟩
  | .app f es, σ, hσ, h => by
    have hnode := NodeWellFormed.subst (fun r hr => (hσ r hr).2) (by simp) h.1
    exact ⟨hnode, WellFormed.subst hσ h.2.1, wellFormed_substEach hσ h.2.2⟩
  | .define x e, σ, hσ, h => by
    have hnode := NodeWellFormed.subst (fun r hr => (hσ r hr).2) (by simp) h.1
    exact ⟨hnode, WellFormed.subst hσ h.2⟩
  | .dict es, σ, hσ, h => by
    have hnode := NodeWellFormed.subst (fun r hr => (hσ r hr).2) (by simp) h.1
    exact ⟨hnode, wellFormed_substEntries hσ h.2⟩
  | .number _, _, _, h | .boolean _, _, _, h | .string _, _, _, h | .prim _, _, _, h
  | .quote _, _, _, h | .foreign _, _, _, h => h
termination_by structural e => e

/-- **Substitution keeps expressions well formed**, unless it puts in a definition. -/
theorem wellFormed_substSeq : ∀ {es : List Expr} {σ : Substitution},
    (∀ r ∈ σ, r.2.WellFormed ∧ r.2.isDefinition = false) → EveryAll NodeWellFormed es →
      EveryAll NodeWellFormed (substSeq σ es)
  | [], _, _, _ => trivial
  | e :: es, σ, hσ, h => by
    rw [substSeq_cons]
    exact ⟨WellFormed.subst hσ h.1,
      wellFormed_substSeq (fun r hr => hσ r (Substitution.mem_of_mem_after hr)) h.2⟩
termination_by structural es => es

theorem wellFormed_substEach : ∀ {es : List Expr} {σ : Substitution},
    (∀ r ∈ σ, r.2.WellFormed ∧ r.2.isDefinition = false) → EveryAll NodeWellFormed es →
      EveryAll NodeWellFormed (substEach σ es)
  | [], _, _, _ => trivial
  | _ :: _, _, hσ, h => ⟨WellFormed.subst hσ h.1, wellFormed_substEach hσ h.2⟩
termination_by structural es => es

theorem wellFormed_substEntries : ∀ {es : List (String × Expr)} {σ : Substitution},
    (∀ r ∈ σ, r.2.WellFormed ∧ r.2.isDefinition = false) → EveryEntry NodeWellFormed es →
      EveryEntry NodeWellFormed (substEntries σ es)
  | [], _, _, _ => trivial
  | (_, _) :: _, _, hσ, h => ⟨WellFormed.subst hσ h.1, wellFormed_substEntries hσ h.2⟩
termination_by structural es => es

end

end Expr

/-! ## The laws -/

open Lambdict.Expr (openNamesSeq)

/-- As many values as names are put in all at once. -/
theorem substituteAll_eq {xs : List String} {as : List Expr} (h : xs.length = as.length)
    (es : List Expr) : substituteAll xs as es = .ok (Expr.substSeq (.ofLists xs as) es) :=
  if_pos h

/-- **The laws of substitution.**  Let `xs` and `ys` be different names, and let nothing that is put
in be a definition.  Then substitution gives well-formed expressions.  It changes nothing where no
name of `xs` is open.  If all that is put in is closed, the two substitutions can be done at once or
one after the other, in either order, and no name of `xs` is open any more.  In general a name is
open afterwards only if it was open and is not in `xs`, or if it is open in what was put in. -/
theorem substituteAll_laws {es : List Expr} {xs ys : List String} {as bs : List Expr}
    (hes : ∀ e ∈ es, e.WellFormed) (hput : ∀ a ∈ as ++ bs, a.WellFormed ∧ a.isDefinition = false)
    (hxs : xs.length = as.length) (hys : ys.length = bs.length) (hxy : ∀ x ∈ xs, x ∉ ys) :
    ∃ first second both : List Expr,
      substituteAll xs as es = .ok first ∧ substituteAll ys bs es = .ok second ∧
      substituteAll (xs ++ ys) (as ++ bs) es = .ok both ∧ (∀ e ∈ both, e.WellFormed) ∧
      ((∀ x ∈ xs, x ∉ openNamesSeq es) → first = es) ∧
      ((∀ a ∈ as ++ bs, a.openNames = []) →
        substituteAll ys bs first = .ok both ∧ substituteAll xs as second = .ok both ∧
          ∀ x ∈ xs, x ∉ openNamesSeq first) ∧
      (∀ x ∈ openNamesSeq first,
        (x ∈ openNamesSeq es ∧ x ∉ xs) ∨ ∃ a ∈ as, x ∈ a.openNames) := by
  have hlen : (xs ++ ys).length = (as ++ bs).length := by simp [hxs, hys]
  have hopen : ∀ x ∈ openNamesSeq (Expr.substSeq (.ofLists xs as) es),
      (x ∈ openNamesSeq es ∧ x ∉ xs) ∨ ∃ a ∈ as, x ∈ a.openNames := by
    intro x hx
    rcases Expr.openNamesSeq_substSeq hx with ⟨hbefore, hnone⟩ | ⟨r, hr, hxr⟩
    · exact .inl ⟨hbefore, (Substitution.find?_ofLists_eq_none_iff hxs).1 hnone⟩
    · exact .inr ⟨r.2, (List.of_mem_zip (List.mem_reverse.1 hr)).2, hxr⟩
  refine ⟨_, _, _, substituteAll_eq hxs es, substituteAll_eq hys es, substituteAll_eq hlen es,
    ?_, fun hnone => ?_, fun hclosed => ⟨?_, ?_, fun x hx hx' => ?_⟩, hopen⟩
  · refine Expr.everyAll_iff.1 (Expr.wellFormed_substSeq (fun r hr => hput r.2 ?_)
      (Expr.everyAll_iff.2 hes))
    exact (List.of_mem_zip (List.mem_reverse.1 hr)).2
  · refine Expr.substSeq_of_not_open fun x hx => ?_
    exact Substitution.find?_ofLists_of_not_mem (fun hmem => hnone x hmem hx) as
  · have hfirst : (Substitution.ofLists xs as).Closed := .ofLists xs fun a ha =>
      ⟨hclosed a (List.mem_append_left _ ha), (hput a (List.mem_append_left _ ha)).2⟩
    rw [substituteAll_eq hys, Expr.substSeq_substSeq es hfirst, Substitution.ofLists_append hxs]
    refine congrArg Except.ok (Expr.substSeq_congr fun x _ => Substitution.find?_append_comm ?_)
    by_cases hx : x ∈ xs
    · exact .inr (Substitution.find?_ofLists_of_not_mem (hxy x hx) bs)
    · exact .inl (Substitution.find?_ofLists_of_not_mem hx as)
  · have hsecond : (Substitution.ofLists ys bs).Closed := .ofLists ys fun b hb =>
      ⟨hclosed b (List.mem_append_right _ hb), (hput b (List.mem_append_right _ hb)).2⟩
    rw [substituteAll_eq hxs, Expr.substSeq_substSeq es hsecond, Substitution.ofLists_append hxs]
  · rcases hopen x hx' with ⟨-, hnot⟩ | ⟨a, ha, hxa⟩
    · exact hnot hx
    · rw [hclosed a (List.mem_append_left _ ha)] at hxa
      cases hxa

/-- A definition of a name ends its scope in the rest of the sequence, and a lambda binds its
parameter. -/
theorem substituteAll_laws_shadowed :
    let es : List Expr := [.define "y" (.app (.var "x") [.var "y"]),
      .lambda ["x"] [.app (.var "x") [.var "y"]], .app (.var "x") [.var "y"]]
    let identity : Expr := .lambda ["z"] [.var "z"]
    let one : Expr := .number (.int 1)
    let first := [.define "y" (.app identity [.var "y"]),
      .lambda ["x"] [.app (.var "x") [.var "y"]], .app identity [.var "y"]]
    let both := [.define "y" (.app identity [one]),
      .lambda ["x"] [.app (.var "x") [.var "y"]], .app identity [.var "y"]]
    substituteAll ["x"] [identity] es = .ok first ∧
      substituteAll ["x", "y"] [identity, one] es = .ok both ∧
      substituteAll ["y"] [one] first = .ok both ∧ (∀ e ∈ both, e.WellFormed) ∧
      "x" ∉ openNamesSeq first := by
  intro es identity one first both
  have hes : ∀ e ∈ es, e.WellFormed := by
    simp [es, Expr.WellFormed, Expr.Every, Expr.EveryAll, Expr.NodeWellFormed, Expr.isDefinition]
  have hput : ∀ a ∈ [identity] ++ [one], a.WellFormed ∧ a.isDefinition = false := by
    simp [identity, one, Expr.WellFormed, Expr.Every, Expr.EveryAll, Expr.NodeWellFormed,
      Expr.isDefinition]
  have hclosed : ∀ a ∈ [identity] ++ [one], a.openNames = [] := by
    simp [identity, one, Expr.openNames, openNamesSeq]
  have hxs : ["x"].length = [identity].length := rfl
  have hys : ["y"].length = [one].length := rfl
  obtain ⟨first', second, both', hfirst, -, hboth, hwf, -, hlaws, -⟩ :=
    substituteAll_laws hes hput hxs hys (by simp)
  obtain rfl : first = first' := Except.ok.inj hfirst
  obtain rfl : both = both' := Except.ok.inj hboth
  obtain ⟨hthen, -, hgone⟩ := hlaws hclosed
  exact ⟨hfirst, hboth, hthen, hwf, hgone "x" (List.mem_singleton_self "x")⟩

end Lambdict
