import Lambdict.Proofs.Collected

/-!
# Where names occur

A name *occurs* in an expression as a reference, as a parameter or as a defined name
(`Expr.Occurs`).  It also occurs there if it does so in a closure that is held in quoted data, at
any depth of the pairs and the dictionaries in which the closure stands.  Keys and symbols are no
names.

An occurrence is *hidden* if a dictionary in quoted data stands around it.  The names of a program
are collected from everywhere but these places (`collectNames_exact`): quoted data is gone through
along its pairs, and the dictionaries in it are not entered.  So a name that occurs in hidden places
only is not collected, although it occurs in the program (`collectNames_skips_dictionaries`).  Where
there is no such name, what is collected are all names that occur.
-/

namespace Lambdict

mutual

/-- **A name occurs in an expression**, hidden or not. -/
inductive Expr.Occurs (x : String) : Bool → Expr → Prop
  | var : Expr.Occurs x false (.var x)
  | test {hidden : Bool} {t c a : Expr} (h : t.Occurs x hidden) : Expr.Occurs x hidden (.cond t c a)
  | consequent {hidden : Bool} {t c a : Expr} (h : c.Occurs x hidden) :
    Expr.Occurs x hidden (.cond t c a)
  | alternate {hidden : Bool} {t c a : Expr} (h : a.Occurs x hidden) :
    Expr.Occurs x hidden (.cond t c a)
  | param {ps : List String} {b : List Expr} (h : x ∈ ps) : Expr.Occurs x false (.lambda ps b)
  | body {hidden : Bool} {ps : List String} {b : List Expr} {e : Expr} (he : e ∈ b)
    (h : e.Occurs x hidden) : Expr.Occurs x hidden (.lambda ps b)
  | operator {hidden : Bool} {f : Expr} {es : List Expr} (h : f.Occurs x hidden) :
    Expr.Occurs x hidden (.app f es)
  | operand {hidden : Bool} {f : Expr} {es : List Expr} {e : Expr} (he : e ∈ es)
    (h : e.Occurs x hidden) : Expr.Occurs x hidden (.app f es)
  | defined {e : Expr} : Expr.Occurs x false (.define x e)
  | value {hidden : Bool} {y : String} {e : Expr} (h : e.Occurs x hidden) :
    Expr.Occurs x hidden (.define y e)
  | entry {hidden : Bool} {es : List (String × Expr)} {k : String} {e : Expr} (he : (k, e) ∈ es)
    (h : e.Occurs x hidden) : Expr.Occurs x hidden (.dict es)
  | quoted {hidden : Bool} {d : Value} (h : d.Occurs x hidden) : Expr.Occurs x hidden (.quote d)

/-- **A name occurs in a value**, hidden or not: it does in a closure that the value holds. -/
inductive Value.Occurs (x : String) : Bool → Value → Prop
  | head {hidden : Bool} {id : Identity} {h t : Value} (hh : h.Occurs x hidden) :
    Value.Occurs x hidden (.pair id h t)
  | tail {hidden : Bool} {id : Identity} {h t : Value} (ht : t.Occurs x hidden) :
    Value.Occurs x hidden (.pair id h t)
  | param {id : Identity} {ps : List String} {b : List Expr} (h : x ∈ ps) :
    Value.Occurs x false (.closure id ps b)
  | body {hidden : Bool} {id : Identity} {ps : List String} {b : List Expr} {e : Expr} (he : e ∈ b)
    (h : e.Occurs x hidden) : Value.Occurs x hidden (.closure id ps b)
  | entry {hidden : Bool} {id : Identity} {es : List (String × Value)} {k : String} {v : Value}
    (hv : (k, v) ∈ es) (h : v.Occurs x hidden) : Value.Occurs x true (.dict id es)

end

/-- A name occurs in a program. -/
def Expr.OccursIn (x : String) (hidden : Bool) (es : List Expr) : Prop :=
  ∃ e ∈ es, e.Occurs x hidden

/-! ## Occurrences in the parts of an expression -/

namespace Expr

variable {x : String} {hidden : Bool}

theorem occurs_var {y : String} : (var y).Occurs x false ↔ x = y := by
  constructor
  · rintro ⟨⟩
    rfl
  · rintro rfl
    exact .var

theorem occurs_cond {t c a : Expr} : (cond t c a).Occurs x hidden ↔
    t.Occurs x hidden ∨ c.Occurs x hidden ∨ a.Occurs x hidden := by
  constructor
  · intro h
    cases h with
    | test h => exact .inl h
    | consequent h => exact .inr (.inl h)
    | alternate h => exact .inr (.inr h)
  · rintro (h | h | h)
    · exact .test h
    · exact .consequent h
    · exact .alternate h

theorem occurs_lambda {ps : List String} {b : List Expr} :
    (lambda ps b).Occurs x false ↔ x ∈ ps ∨ OccursIn x false b := by
  constructor
  · intro h
    cases h with
    | param h => exact .inl h
    | body he h => exact .inr ⟨_, he, h⟩
  · rintro (h | ⟨e, he, h⟩)
    · exact .param h
    · exact .body he h

theorem occurs_app {f : Expr} {es : List Expr} :
    (app f es).Occurs x hidden ↔ f.Occurs x hidden ∨ OccursIn x hidden es := by
  constructor
  · intro h
    cases h with
    | operator h => exact .inl h
    | operand he h => exact .inr ⟨_, he, h⟩
  · rintro (h | ⟨e, he, h⟩)
    · exact .operator h
    · exact .operand he h

theorem occurs_define {y : String} {e : Expr} :
    (define y e).Occurs x false ↔ x = y ∨ e.Occurs x false := by
  constructor
  · intro h
    cases h with
    | defined => exact .inl rfl
    | value h => exact .inr h
  · rintro (rfl | h)
    · exact .defined
    · exact .value h

theorem occurs_dict {es : List (String × Expr)} :
    (dict es).Occurs x hidden ↔ OccursIn x hidden (es.map Prod.snd) := by
  constructor
  · intro h
    cases h with
    | entry he h => exact ⟨_, List.mem_map_of_mem he, h⟩
  · rintro ⟨e, he, h⟩
    obtain ⟨⟨k, e⟩, hk, rfl⟩ := List.mem_map.1 he
    exact .entry hk h

theorem occurs_quote {d : Value} : (quote d).Occurs x hidden ↔ d.Occurs x hidden := by
  constructor
  · intro h
    cases h with
    | quoted h => exact h
  · exact .quoted

theorem occursIn_cons {e : Expr} {es : List Expr} :
    OccursIn x hidden (e :: es) ↔ e.Occurs x hidden ∨ OccursIn x hidden es :=
  List.exists_mem_cons_iff _ e es

end Expr

namespace Value

variable {x : String} {hidden : Bool}

theorem occurs_pair {id : Identity} {h t : Value} :
    (pair id h t).Occurs x hidden ↔ h.Occurs x hidden ∨ t.Occurs x hidden := by
  constructor
  · intro h
    cases h with
    | head h => exact .inl h
    | tail h => exact .inr h
  · rintro (h | h)
    · exact .head h
    · exact .tail h

theorem occurs_closure {id : Identity} {ps : List String} {b : List Expr} :
    (closure id ps b).Occurs x false ↔ x ∈ ps ∨ Expr.OccursIn x false b := by
  constructor
  · intro h
    cases h with
    | param h => exact .inl h
    | body he h => exact .inr ⟨_, he, h⟩
  · rintro (h | ⟨e, he, h⟩)
    · exact .param h
    · exact .body he h

end Value

/-! ## What is collected -/

open SExpr (exists_of_bind_eq_ok)

mutual

/-- **The names that are added for an expression are those that occur in it.** -/
theorem Expr.mem_addNames {x : String} : ∀ {e : Expr} {acc acc' : NameSet},
    e.addNames acc = .ok acc' → (x ∈ acc' ↔ x ∈ acc ∨ e.Occurs x false)
  | .var y, _, _, h => by
    cases h
    rw [NameSet.mem_insert, Expr.occurs_var, or_comm]
  | .lambda ps b, _, _, h => by
    rw [Expr.mem_addNamesAll h, NameSet.mem_insertAll, Expr.occurs_lambda, or_assoc]
  | .cond t c a, _, _, h => by
    -- names are collected from the last part to the first
    obtain ⟨_, ha, h⟩ := exists_of_bind_eq_ok h
    obtain ⟨_, hc, ht⟩ := exists_of_bind_eq_ok h
    rw [Expr.mem_addNames ht, Expr.mem_addNames hc, Expr.mem_addNames ha, Expr.occurs_cond]
    grind
  | .app f es, _, _, h => by
    obtain ⟨_, hes, hf⟩ := exists_of_bind_eq_ok h
    rw [Expr.mem_addNames hf, Expr.mem_addNamesAll hes, Expr.occurs_app, or_assoc,
      or_comm (a := Expr.OccursIn x false es)]
  | .define y e, acc, acc', h => by
    have he : e.addNames (acc.insert y) = .ok acc' := h
    rw [Expr.mem_addNames he, NameSet.mem_insert, Expr.occurs_define]
    grind
  | .dict es, _, _, h => by rw [Expr.mem_addNamesEntries h, Expr.occurs_dict]
  | .quote d, _, _, h => by
    obtain ⟨_, -, hd⟩ := exists_of_bind_eq_ok h
    rw [Value.mem_addNames hd, Expr.occurs_quote]
  | .number _, _, _, h | .boolean _, _, _, h | .string _, _, _, h | .prim _, _, _, h
  | .foreign _, _, _, h => by
    cases h
    exact ⟨.inl, fun hx => hx.resolve_right nofun⟩

/-- The names that are added for a sequence are those that occur in its elements. -/
theorem Expr.mem_addNamesAll {x : String} : ∀ {es : List Expr} {acc acc' : NameSet},
    Expr.addNamesAll acc es = .ok acc' → (x ∈ acc' ↔ x ∈ acc ∨ Expr.OccursIn x false es)
  | [], _, _, h => by
    cases h
    exact ⟨.inl, fun hx => hx.resolve_right nofun⟩
  | e :: es, _, _, h => by
    obtain ⟨_, hes, he⟩ := exists_of_bind_eq_ok h
    rw [Expr.mem_addNames he, Expr.mem_addNamesAll hes, Expr.occursIn_cons, or_assoc,
      or_comm (a := Expr.OccursIn x false es)]

theorem Expr.mem_addNamesEntries {x : String} : ∀ {es : List (String × Expr)} {acc acc' : NameSet},
    Expr.addNamesEntries acc es = .ok acc' →
      (x ∈ acc' ↔ x ∈ acc ∨ Expr.OccursIn x false (es.map Prod.snd))
  | [], _, _, h => by
    cases h
    exact ⟨.inl, fun hx => hx.resolve_right nofun⟩
  | (_, e) :: es, _, _, h => by
    obtain ⟨_, hes, he⟩ := exists_of_bind_eq_ok h
    rw [Expr.mem_addNames he, Expr.mem_addNamesEntries hes, List.map_cons, Expr.occursIn_cons,
      or_assoc, or_comm (a := Expr.OccursIn x false (es.map Prod.snd))]

/-- The names that are added for quoted data are those that occur in its closures. -/
theorem Value.mem_addNames {x : String} : ∀ {d : Value} {acc acc' : NameSet},
    d.addNames acc = .ok acc' → (x ∈ acc' ↔ x ∈ acc ∨ d.Occurs x false)
  | .pair _ h t, _, _, hd => by
    obtain ⟨_, hh, ht⟩ := exists_of_bind_eq_ok hd
    rw [Value.mem_addNames ht, Value.mem_addNames hh, Value.occurs_pair, or_assoc]
  | .closure _ ps b, _, _, h => by
    rw [Expr.mem_addNamesAll h, NameSet.mem_insertAll, Value.occurs_closure, or_assoc]
  | .nothing, _, _, h | .number _, _, _, h | .boolean _, _, _, h | .string _, _, _, h
  | .symbol _, _, _, h | .empty, _, _, h | .prim _, _, _, h | .dict _ _, _, _, h
  | .code _ _, _, _, h | .sequence _ _, _, _, h => by
    cases h
    exact ⟨.inl, fun hx => hx.resolve_right nofun⟩

end

/-- **What is collected are the names that occur outside hidden places.**  On a valid program
collecting succeeds.  The names that it finds are all names of the program exactly if every name
that occurs in a hidden place occurs in one that is not hidden too. -/
theorem collectNames_exact {es : List Expr} (h : Expr.ValidAll es) :
    ∃ names, collectNames es = .ok names ∧
      (∀ x, x ∈ names ↔ Expr.OccursIn x false es) ∧
      ((∀ x, x ∈ names ↔ ∃ hidden, Expr.OccursIn x hidden es) ↔
        ∀ x, Expr.OccursIn x true es → Expr.OccursIn x false es) := by
  obtain ⟨names, hnames⟩ := collectNames_of_valid h
  have hmem (x : String) : x ∈ names ↔ Expr.OccursIn x false es := by
    rw [Expr.mem_addNamesAll hnames]
    exact or_iff_right (NameSet.not_mem_empty x)
  refine ⟨names, hnames, hmem, ⟨fun hall x hx => ?_, fun hall x => ?_⟩⟩
  · exact (hmem x).1 ((hall x).2 ⟨true, hx⟩)
  · rw [hmem x]
    constructor
    · exact fun hx => ⟨false, hx⟩
    · rintro ⟨hidden, hx⟩
      cases hidden with
      | false => exact hx
      | true => exact hall x hx

/-- The names of a definition whose value is quoted data with a closure in it, and of a lambda with
a dictionary literal in its body.  The quoted symbol and the key are no names. -/
theorem collectNames_exact_quoted :
    let es : List Expr :=
      [.define "f" (.quote (.pair (.given 0) (.symbol "s")
        (.pair (.given 1) (.closure (.given 2) ["x"] [.var "y"]) .empty))),
       .lambda ["a"] [.dict [("k", .var "b")]]]
    Expr.ValidAll es ∧ ∃ names, collectNames es = .ok names ∧
      names.toList = ["a", "b", "f", "x", "y"] ∧
      ∀ x, x ∈ ["a", "b", "f", "x", "y"] ↔ Expr.OccursIn x false es := by
  intro es
  have hvalid : Expr.ValidAll es := by
    simp [es, Expr.ValidAll, Expr.Valid, Expr.ValidEntries, Value.Valid, Expr.NodeWellFormed,
      Expr.isDefinition, Value.isDict]
  obtain ⟨names, hnames, hmem, -⟩ := collectNames_exact hvalid
  have hlist : names.toList = ["a", "b", "f", "x", "y"] := by
    cases hnames
    rfl
  refine ⟨hvalid, names, hnames, hlist, fun x => ?_⟩
  rw [← hlist, NameSet.mem_toList, hmem]

/-- **A closure in a dictionary is passed over.**  The program quotes a list of one dictionary with
one closure, which has the parameter `x` and refers to `y`.  No name is collected. -/
theorem collectNames_skips_dictionaries :
    let es : List Expr :=
      [.quote (.pair (.given 0)
        (.dict (.given 1) [("k", .closure (.given 2) ["x"] [.var "y"])]) .empty)]
    Expr.ValidAll es ∧ collectNames es = .ok ∅ ∧
      Expr.OccursIn "x" true es ∧ Expr.OccursIn "y" true es := by
  intro es
  refine ⟨?_, rfl, ?_, ?_⟩
  · simp [es, Expr.ValidAll, Expr.Valid, Value.Valid, Value.ValidEntries, Expr.NodeWellFormed,
      Value.isDict]
  · exact ⟨_, List.mem_singleton_self _,
      .quoted (.head (.entry (List.mem_singleton_self _) (.param (List.mem_singleton_self _))))⟩
  · exact ⟨_, List.mem_singleton_self _,
      .quoted (.head (.entry (List.mem_singleton_self _) (.body (List.mem_singleton_self _) .var)))⟩

end Lambdict
