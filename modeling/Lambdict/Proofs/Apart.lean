import Lambdict.Proofs.Collected
import Lambdict.Proofs.FreeNames
import Lambdict.Proofs.Nameless.Alpha
import Lambdict.Proofs.Nameless.Renaming
import Lambdict.Proofs.Simulation.Invariant

/-!
# Renaming apart

Renaming is a conversion into a form in which no two lambdas share a parameter
(`Expr.renameAll_apart`).  Nothing but the names of parameters changes.  The new ones are all
different, and none of them is reserved; and each takes the supply at least one number further.

A renamed expression has just the parameters that renaming draws, although not in the same order
(`Expr.binders_rename`): the parameters of a lambda are drawn after those in its body.  What is put
in for the old names are variables, and these bind nothing.

That the names which are collected from the program are reserved is all that is asked of the supply.
-/

namespace Lambdict

/-- Every fresh name takes a number of its own. -/
theorem NameSupply.counter_freshAll (s : NameSupply) (xs : List String) :
    s.counter + xs.length ≤ (s.freshAll xs).2.counter := by
  induction xs generalizing s with
  | nil => exact Int.le_of_eq (Int.add_zero s.counter)
  | cons x xs ih =>
    have hx := s.counter_lt_fresh x
    have hxs := ih (s.fresh x).2
    simp only [freshAll, List.length_cons]
    omega

namespace Expr

/-! ## The parameters of a renamed expression -/

mutual

/-- Replacing names by expressions that bind nothing leaves all parameters as they are. -/
theorem binders_subst {σ : Substitution} (hσ : ∀ r ∈ σ, r.2.binders = []) :
    ∀ e : Expr, (e.subst σ).binders = e.binders
  | .var x => by
    rw [subst]
    cases hx : σ.find? x with
    | none => rfl
    | some e => exact hσ _ (Substitution.mem_of_find? hx)
  | .cond t c a => by
    rw [subst, binders, binders_subst hσ t, binders_subst hσ c, binders_subst hσ a, binders]
  | .lambda ps b => by
    have hinner : ∀ r ∈ σ.withoutAll ps, r.2.binders = [] :=
      fun r hr => hσ r (List.mem_of_mem_filter hr)
    rw [subst, binders, bindersAll_substSeq hinner b, binders]
  | .app f es => by rw [subst, binders, binders_subst hσ f, bindersAll_substEach hσ es, binders]
  | .define x e => by rw [subst, binders, binders_subst hσ e, binders]
  | .dict es => by rw [subst, binders, bindersEntries_subst hσ es, binders]
  | .number _ | .boolean _ | .string _ | .prim _ | .quote _ | .foreign _ => rfl
termination_by structural e => e

theorem bindersAll_substSeq {σ : Substitution} (hσ : ∀ r ∈ σ, r.2.binders = []) :
    ∀ es : List Expr, bindersAll (substSeq σ es) = bindersAll es
  | [] => rfl
  | e :: es => by
    have hafter : ∀ r ∈ σ.after e, r.2.binders = [] := by
      cases e with
      | define z d => exact fun r hr => hσ r (List.mem_of_mem_filter hr)
      | _ => exact hσ
    rw [substSeq_cons, bindersAll, binders_subst hσ e, bindersAll_substSeq hafter es, bindersAll]
termination_by structural es => es

theorem bindersAll_substEach {σ : Substitution} (hσ : ∀ r ∈ σ, r.2.binders = []) :
    ∀ es : List Expr, bindersAll (substEach σ es) = bindersAll es
  | [] => rfl
  | e :: es => by
    rw [substEach, bindersAll, binders_subst hσ e, bindersAll_substEach hσ es, bindersAll]
termination_by structural es => es

theorem bindersEntries_subst {σ : Substitution} (hσ : ∀ r ∈ σ, r.2.binders = []) :
    ∀ es : List (String × Expr), bindersEntries (substEntries σ es) = bindersEntries es
  | [] => rfl
  | (_, e) :: es => by
    rw [substEntries, bindersEntries, binders_subst hσ e, bindersEntries_subst hσ es,
      bindersEntries]
termination_by structural es => es

end

/-- New names for parameters bind nothing. -/
theorem binders_of_mem_ofLists_vars {ps qs : List String} :
    ∀ r ∈ Substitution.ofLists ps (qs.map .var), r.2.binders = [] := by
  intro r hr
  obtain ⟨y, -, heq⟩ := List.mem_map.1 (List.of_mem_zip (List.mem_reverse.1 hr)).2
  rw [← heq, binders]

mutual

/-- **A renamed expression has just the parameters that were drawn for it.** -/
theorem binders_rename : ∀ (e : Expr) (s : NameSupply), (e.rename s).1.binders.Perm (e.drawn s)
  | .lambda ps b, s => by
    rw [rename, binders, bindersAll_substSeq binders_of_mem_ofLists_vars, drawn]
    exact List.perm_append_comm.trans ((bindersAll_rename b s).append_right _)
  | .cond t c a, s =>
    ((binders_rename t s).append (binders_rename c _)).append (binders_rename a _)
  | .app f es, s => (binders_rename f s).append (bindersAll_rename es _)
  | .define _ e, s => binders_rename e s
  | .dict es, s => bindersEntries_rename es s
  | .number _, _ | .boolean _, _ | .string _, _ | .var _, _ | .prim _, _ | .quote _, _
  | .foreign _, _ => .refl _

theorem bindersAll_rename : ∀ (es : List Expr) (s : NameSupply),
    (bindersAll (renameAll es s).1).Perm (drawnAll es s)
  | [], _ => .refl _
  | e :: es, s => (binders_rename e s).append (bindersAll_rename es _)

theorem bindersEntries_rename : ∀ (es : List (String × Expr)) (s : NameSupply),
    (bindersEntries (renameEntries es s).1).Perm (drawnEntries es s)
  | [], _ => .refl _
  | (_, e) :: es, s => (binders_rename e s).append (bindersEntries_rename es _)

end

/-! ## The numbers that are used up -/

mutual

theorem counter_rename : ∀ (e : Expr) (s : NameSupply),
    s.counter + e.binders.length ≤ (e.rename s).2.counter
  | .lambda ps b, s => by
    have hb := counter_renameAll b s
    have hps := (renameAll b s).2.counter_freshAll ps
    simp only [rename, binders, List.length_append]
    omega
  | .cond t c a, s => by
    have ht := counter_rename t s
    have hc := counter_rename c (t.rename s).2
    have ha := counter_rename a (c.rename (t.rename s).2).2
    simp only [rename, binders, List.length_append]
    omega
  | .app f es, s => by
    have hf := counter_rename f s
    have hes := counter_renameAll es (f.rename s).2
    simp only [rename, binders, List.length_append]
    omega
  | .define _ e, s => counter_rename e s
  | .dict es, s => counter_renameEntries es s
  | .number _, s | .boolean _, s | .string _, s | .var _, s | .prim _, s | .quote _, s
  | .foreign _, s => Int.le_of_eq (Int.add_zero s.counter)

/-- **Every parameter takes a number of its own.** -/
theorem counter_renameAll : ∀ (es : List Expr) (s : NameSupply),
    s.counter + (bindersAll es).length ≤ (renameAll es s).2.counter
  | [], s => Int.le_of_eq (Int.add_zero s.counter)
  | e :: es, s => by
    have he := counter_rename e s
    have hes := counter_renameAll es (e.rename s).2
    simp only [renameAll, bindersAll, List.length_append]
    omega

theorem counter_renameEntries : ∀ (es : List (String × Expr)) (s : NameSupply),
    s.counter + (bindersEntries es).length ≤ (renameEntries es s).2.counter
  | [], s => Int.le_of_eq (Int.add_zero s.counter)
  | (_, e) :: es, s => by
    have he := counter_rename e s
    have hes := counter_renameEntries es (e.rename s).2
    simp only [renameEntries, bindersEntries, List.length_append]
    omega

end

/-! ## Renaming apart -/

/-- **Renaming is an alpha-conversion into a form with distinct parameters.**  Take a sequence of
well-formed expressions whose names can be collected, and a supply that has reserved them.  The
renamed sequence has the same nameless form: quoted data, keys, defined names and all names that no
parameter binds are as they were.  So it is alpha-equivalent to the given one, where its quoted data
is valid.  All parameters in it are different, and none of them is reserved.  The supply reserves
what it reserved before, and each parameter has used up a number.  This is what the renaming comes
to, unless one of the numbers it goes through is over the digit limit; then it ends with an
abort. -/
theorem renameAll_apart {es : List Expr} {names : NameSet} {s : NameSupply}
    (hwf : ∀ e ∈ es, e.WellFormed) (hnames : collectNames es = .ok names)
    (hs : ∀ x ∈ names, x ∈ s.reserved) :
    let renamed := (renameAll es s).1
    let after := (renameAll es s).2
    (s.Within after → renameAllWithin es s = .ok (renamed, after)) ∧
      (¬ s.Within after → renameAllWithin es s = .error .longNumber) ∧
      namelessSeq [] renamed = namelessSeq [] es ∧ (ValidAll es → AlphaEqSeq es renamed) ∧
      (bindersAll renamed).Nodup ∧ (∀ x ∈ bindersAll renamed, x ∉ s.reserved) ∧
      after.reserved = s.reserved ∧ s.counter + (bindersAll es).length ≤ after.counter := by
  intro renamed after
  have hanswers := renameAllWithin_answers es s
  have hcovers : EveryAll (NodeNames s.Covers) es :=
    everyAll_names_imp (fun x hx => .inl (hs x hx)) (collectNames_names hnames)
  have hform : namelessSeq [] renamed = namelessSeq [] es :=
    namelessSeq_renameAll s (everyAll_iff.2 hwf) hcovers []
  have hdrawn := renameAll_drawn es s
  have hperm := bindersAll_rename es s
  refine ⟨hanswers.ok, hanswers.error, hform, fun hv => hv.alphaEqSeq_of_nameless hform.symm, ?_,
    ?_, ?_, ?_⟩
  · exact hperm.nodup_iff.2 hdrawn.nodup
  · exact fun x hx => (hdrawn.drawn x (hperm.mem_iff.1 hx)).fresh
  · exact reserved_renameAll es s
  · exact counter_renameAll es s

/-- A parameter whose name is defined anew, a lambda that has it for a parameter again, and a free
name that could have been drawn. -/
theorem renameAll_apart_shadowed :
    let es : List Expr := [.lambda ["x"] [.define "x" (.app (.var "f") [.var "x"]),
      .lambda ["x", "y"] [.app (.var "x") [.var "y", .var "y__2"]], .var "x"]]
    let names := NameSet.ofList ["f", "x", "y", "y__2"]
    let s := NameSupply.start names
    let renamed := [.lambda ["x__4"] [.define "x" (.app (.var "f") [.var "x__4"]),
      .lambda ["x__1", "y__3"] [.app (.var "x__1") [.var "y__3", .var "y__2"]], .var "x"]]
    (∀ e ∈ es, e.WellFormed) ∧ collectNames es = .ok names ∧
      renameAllWithin es s = .ok (renamed, ⟨4, names⟩) ∧
      namelessSeq [] renamed = namelessSeq [] es ∧ ValidAll es ∧ AlphaEqSeq es renamed ∧
      (bindersAll renamed).Nodup := by
  intro es names s renamed
  have hwf : ∀ e ∈ es, e.WellFormed := by
    simp [es, WellFormed, Every, EveryAll, NodeWellFormed, isDefinition]
  have hnames : collectNames es = .ok names := by decide +kernel
  have hrename : renameAll es s = (renamed, ⟨4, names⟩) := by rfl
  have hwithin : s.Within ⟨4, names⟩ :=
    NameSupply.within_of_counter_lt (by decide) (by decide +kernel)
  have hv : ValidAll es := by
    simp [es, ValidAll, Valid, NodeWellFormed, isDefinition]
  obtain ⟨hok, -, hform, halpha, hnodup, -⟩ :=
    renameAll_apart (s := s) hwf hnames fun x hx => hx
  rw [hrename] at hok hform halpha hnodup
  exact ⟨hwf, hnames, hok hwithin, hform, hv, halpha hv, hnodup⟩

/-- **At the digit limit nothing is renamed**, not even a lambda with one parameter. -/
theorem renameAll_last_refused :
    let es : List Expr := [.lambda ["x"] [.var "x"]]
    let names := NameSet.ofList ["x"]
    (∀ e ∈ es, e.WellFormed) ∧ collectNames es = .ok names ∧ ValidAll es ∧
      renameAllWithin es (.last names) = .error .longNumber := by
  intro es names
  refine ⟨?_, by decide +kernel, ?_, ?_⟩
  · simp [es, WellFormed, Every, EveryAll, NodeWellFormed]
  · simp [es, ValidAll, Valid, NodeWellFormed]
  · have hlt := NameSupply.counter_lt_fresh (.last names) "x"
    exact (renameAllWithin_answers es (.last names)).error (NameSupply.not_within_last hlt)

end Expr

end Lambdict
