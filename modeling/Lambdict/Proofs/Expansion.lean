import Lambdict.Proofs.WellFormed

/-!
# Expansion all the way down

`Expr.desugar` leaves quoted data alone, since the data of a program has no closures in it.  When a
program runs, closures do get into data, and data into the bodies of closures.  So a *value* is
expanded by going into pairs, dictionaries and closures, and into what the bodies of closures quote
(`Value.expand`, `Expr.expand`).

On expressions whose quoted data is readable the two are the same (`Expr.expand_eq_desugar`), and
placing the objects of a program goes along with expanding it (`Expr.placeAll_desugarAll`).

What holds of every node of a program holds of every node of its expansion, if it can be told from
the nodes that the expansion makes (`Desugar.Keeps`, `Expr.Every.desugar_of`).  Well-formedness and
readability can (`Expr.keeps_wellFormed`, `Expr.keeps_readable`).
-/

namespace Lambdict

mutual

/-- Expands the dictionary literals of an expression, also those of closures in quoted data. -/
def Expr.expand (strategy : Strategy) : Expr → Expr
  | .dict es => Desugar.call .dict (Expr.expandEntries strategy es)
  | .app (.dict es) [key] =>
    match strategy with
    | .lookup => Desugar.search (Expr.expandEntries strategy es) (key.expand strategy)
    | .construct =>
      .app (Desugar.call .dict (Expr.expandEntries strategy es)) [key.expand strategy]
  | .app f es => .app (f.expand strategy) (Expr.expandAll strategy es)
  | .cond t c a => .cond (t.expand strategy) (c.expand strategy) (a.expand strategy)
  | .lambda ps b => .lambda ps (Expr.expandAll strategy b)
  | .define x e => .define x (e.expand strategy)
  | .quote d => .quote (d.expand strategy)
  | .number n => .number n
  | .boolean b => .boolean b
  | .string s => .string s
  | .var x => .var x
  | .prim p => .prim p
  | .foreign v => .foreign v

/-- Expands several expressions. -/
def Expr.expandAll (strategy : Strategy) : List Expr → List Expr
  | [] => []
  | e :: es => e.expand strategy :: Expr.expandAll strategy es

/-- The entries of a dictionary literal as calls that make pairs. -/
def Expr.expandEntries (strategy : Strategy) : List (String × Expr) → List Expr
  | [] => []
  | (k, e) :: es =>
    Desugar.call .cons [.quote (.symbol k), e.expand strategy] :: Expr.expandEntries strategy es

/-- **Expands a value**: the body of every closure in it, at any depth of its pairs and
dictionaries. -/
def Value.expand (strategy : Strategy) : Value → Value
  | .pair id h t => .pair id (h.expand strategy) (t.expand strategy)
  | .closure id ps b => .closure id ps (Expr.expandAll strategy b)
  | .dict id es => .dict id (Value.expandEntries strategy es)
  | .nothing => .nothing
  | .number n => .number n
  | .boolean b => .boolean b
  | .string s => .string s
  | .symbol x => .symbol x
  | .empty => .empty
  | .prim p => .prim p
  | .code id e => .code id e
  | .sequence id vs => .sequence id vs

/-- Expands the values of a dictionary. -/
def Value.expandEntries (strategy : Strategy) : List (String × Value) → List (String × Value)
  | [] => []
  | (k, v) :: es => (k, v.expand strategy) :: Value.expandEntries strategy es

end

variable (strategy : Strategy)

namespace Expr

/-! ## Applications -/

/-- An application is expanded part by part, unless it is the call of a literal. -/
theorem expand_app {f : Expr} {es : List Expr} (h : ∀ ds key, f = .dict ds → es ≠ [key]) :
    (Expr.app f es).expand strategy = .app (f.expand strategy) (expandAll strategy es) := by
  rw [expand]
  exact fun ds key hf hes => h ds key hf hes

/-- An application is desugared part by part, unless it is the call of a literal. -/
theorem desugar_app {f : Expr} {es : List Expr} (h : ∀ ds key, f = .dict ds → es ≠ [key]) :
    (Expr.app f es).desugar strategy = .app (f.desugar strategy) (desugarAll strategy es) := by
  rw [desugar]
  exact fun ds key hf hes => h ds key hf hes

/-- A dictionary literal applied to one key, or any other application. -/
theorem app_cases (f : Expr) (es : List Expr) :
    (∃ ds key, f = .dict ds ∧ es = [key]) ∨ ∀ ds key, f = .dict ds → es ≠ [key] := by
  by_cases h : ∃ ds key, f = .dict ds ∧ es = [key]
  · exact .inl h
  · exact .inr fun ds key hf hes => h ⟨ds, key, hf, hes⟩

/-- An application expands to an application. -/
theorem exists_expand_app (f : Expr) (es : List Expr) :
    ∃ f' es', (Expr.app f es).expand strategy = .app f' es' := by
  rcases app_cases f es with ⟨ds, key, rfl, rfl⟩ | h
  · cases strategy <;> exact ⟨_, _, rfl⟩
  · exact ⟨_, _, expand_app strategy h⟩

/-- An application is desugared to an application. -/
theorem exists_desugar_app (f : Expr) (es : List Expr) :
    ∃ f' es', (Expr.app f es).desugar strategy = .app f' es' := by
  rcases app_cases f es with ⟨ds, key, rfl, rfl⟩ | h
  · cases strategy <;> exact ⟨_, _, rfl⟩
  · exact ⟨_, _, desugar_app strategy h⟩

/-- Under *construct* all applications are alike. -/
@[simp]
theorem expand_app_construct (f : Expr) (es : List Expr) :
    (Expr.app f es).expand .construct =
      .app (f.expand .construct) (expandAll .construct es) := by
  rcases app_cases f es with ⟨ds, key, rfl, rfl⟩ | h
  · rfl
  · exact expand_app .construct h

/-- *Construct* desugars an application part by part. -/
theorem desugar_app_construct (f : Expr) (es : List Expr) :
    (Expr.app f es).desugar .construct =
      .app (f.desugar .construct) (desugarAll .construct es) := by
  rcases app_cases f es with ⟨ds, key, rfl, rfl⟩ | h
  · rfl
  · exact desugar_app .construct h

end Expr

/-! ## Expansion of programs -/

/-- Data that a text can write has nothing to expand. -/
theorem Value.expand_of_readable : ∀ {d : Value}, d.Readable → d.expand strategy = d
  | .pair _ _ _, h => by
    simp only [Value.expand, expand_of_readable h.1, expand_of_readable h.2]
  | .number _, _ | .boolean _, _ | .string _, _ | .symbol _, _ | .empty, _ => rfl

namespace Expr

mutual

/-- **Where data is as a text can write it, to expand is to desugar.** -/
theorem expand_eq_desugar : ∀ {e : Expr}, e.Readable → e.expand strategy = e.desugar strategy
  | .dict es, h => by simp only [expand, desugar, expandEntries_eq h.2]
  | .app f es, h => by
    have hf := expand_eq_desugar h.2.1
    have hes := expandAll_eq h.2.2
    rcases app_cases f es with ⟨ds, key, rfl, rfl⟩ | hne
    · -- the search is made of the pairs and the key, so these have to be taken out again
      simp only [expand, desugar, Desugar.call, Expr.app.injEq, true_and] at hf
      simp only [expandAll, desugarAll, List.cons.injEq, and_true] at hes
      cases strategy <;> simp only [expand, desugar, hf, hes]
    · rw [expand_app strategy hne, desugar_app strategy hne, hf, hes]
  | .cond t c a, h => by
    simp only [expand, desugar, expand_eq_desugar h.2.1, expand_eq_desugar h.2.2.1,
      expand_eq_desugar h.2.2.2]
  | .lambda ps b, h => by simp only [expand, desugar, expandAll_eq h.2]
  | .define x e, h => by simp only [expand, desugar, expand_eq_desugar h.2]
  | .quote d, h => by simp only [expand, desugar, Value.expand_of_readable strategy h]
  | .number _, _ | .boolean _, _ | .string _, _ | .var _, _ | .prim _, _ | .foreign _, _ => rfl

theorem expandAll_eq : ∀ {es : List Expr}, EveryAll NodeReadable es →
    expandAll strategy es = desugarAll strategy es
  | [], _ => rfl
  | _ :: _, h => by simp only [expandAll, desugarAll, expand_eq_desugar h.1, expandAll_eq h.2]

theorem expandEntries_eq : ∀ {es : List (String × Expr)}, EveryEntry NodeReadable es →
    expandEntries strategy es = desugarEntries strategy es
  | [], _ => rfl
  | (_, _) :: _, h => by
    simp only [expandEntries, desugarEntries, expand_eq_desugar h.1, expandEntries_eq h.2]

end

/-! ## Expansion and placement -/

theorem place_scanner (n : Nat) : Desugar.scanner.place n = (Desugar.scanner, n) := rfl

/-- What is no call of a literal is placed as none. -/
theorem place_app_cases {f : Expr} {es : List Expr} (n : Nat)
    (h : ∀ ds key, f = .dict ds → es ≠ [key]) (ds : List (String × Expr)) (key : Expr)
    (hf : (f.place n).1 = .dict ds) : (placeAll (f.place n).2 es).1 ≠ [key] := by
  cases f with
  | dict es' =>
    intro hes
    match es, hes with
    | [e], _ => exact h es' e rfl rfl
  | _ => cases hf

mutual

/-- **Placing goes along with desugaring**: a desugared expression is placed as the placed one is
desugared. -/
theorem place_desugar (n : Nat) : ∀ e : Expr,
    (e.desugar strategy).place n = ((e.place n).1.desugar strategy, (e.place n).2)
  | .dict es => by
    simp only [desugar, Desugar.call, place, placeAll_desugarEntries n es]
  | .app f es => by
    have hf := place_desugar n f
    have hes := placeAll_desugarAll (f.place n).2 es
    rcases app_cases f es with ⟨ds, key, rfl, rfl⟩ | hne
    · simp only [desugar, Desugar.call, place, Prod.mk.injEq, Expr.app.injEq, true_and] at hf
      obtain ⟨hds, hn⟩ := hf
      simp only [desugarAll, placeAll, place, Prod.mk.injEq, List.cons.injEq, and_true] at hes
      obtain ⟨hkey, hn'⟩ := hes
      -- either way the entries are placed first, and then the key
      cases strategy with
      | construct =>
        simp only [desugar, Desugar.call, place, placeAll, hds, hn, hkey, hn']
      | lookup =>
        simp only [desugar, Desugar.search, Desugar.call, place, placeAll, place_scanner, hds, hn,
          hkey, hn']
    · rw [desugar_app strategy hne]
      simp only [place]
      rw [hf, hes, desugar_app strategy (place_app_cases n hne)]
  | .cond t c a => by
    simp only [desugar, place, place_desugar _ t, place_desugar _ c, place_desugar _ a]
  | .lambda ps b => by simp only [desugar, place, placeAll_desugarAll n b]
  | .define x e => by simp only [desugar, place, place_desugar n e]
  | .quote d | .foreign d => rfl
  | .number _ | .boolean _ | .string _ | .var _ | .prim _ => rfl

theorem placeAll_desugarAll (n : Nat) : ∀ es : List Expr,
    placeAll n (desugarAll strategy es) =
      (desugarAll strategy (placeAll n es).1, (placeAll n es).2)
  | [] => rfl
  | e :: es => by
    simp only [desugarAll, placeAll, place_desugar n e, placeAll_desugarAll _ es]

theorem placeAll_desugarEntries (n : Nat) : ∀ es : List (String × Expr),
    placeAll n (desugarEntries strategy es) =
      (desugarEntries strategy (placeEntries n es).1, (placeEntries n es).2)
  | [] => rfl
  | (k, e) :: es => by
    simp only [desugarEntries, Desugar.call, placeAll, place, Value.place, placeEntries,
      place_desugar n e, placeAll_desugarEntries _ es]

end

/-! ## What expansion keeps -/

end Expr

/-- **A property of nodes that expansion keeps**: the nodes that it makes have the property if the
nodes have it that they are made of. -/
structure Desugar.Keeps (strategy : Strategy) (P : Expr → Prop) : Prop where
  prim : ∀ p, P (.prim p)
  cond : ∀ {t c a}, P (.cond t c a) →
    P (.cond (t.desugar strategy) (c.desugar strategy) (a.desugar strategy))
  lambda : ∀ {ps b}, P (.lambda ps b) → P (.lambda ps (Expr.desugarAll strategy b))
  app : ∀ {f es}, P (.app f es) → P (.app (f.desugar strategy) (Expr.desugarAll strategy es))
  define : ∀ {x e}, P (.define x e) → P (.define x (e.desugar strategy))
  dict : ∀ {es}, P (.dict es) → P (call .dict (Expr.desugarEntries strategy es))
  pairs : ∀ {es}, P (.dict es) → ∀ r ∈ es, P (.quote (.symbol r.1)) ∧
    P (call .cons [.quote (.symbol r.1), r.2.desugar strategy])
  scanner : scanner.Every P
  search : ∀ {es key}, P (.dict es) → P (.app (.dict es) [key]) →
    P (search (Expr.desugarEntries strategy es) (key.desugar strategy)) ∧
      P (call .list (Expr.desugarEntries strategy es)) ∧ P (call .list [key.desugar strategy])

namespace Expr

section

variable {strategy : Strategy} {P : Expr → Prop}

mutual

/-- **What holds of all nodes holds of all nodes of the expansion**, if expansion keeps it. -/
theorem Every.desugar_of (hP : Desugar.Keeps strategy P) : ∀ {e : Expr}, e.Every P →
    (e.desugar strategy).Every P
  | .dict es, h => ⟨hP.dict h.1, hP.prim _, EveryEntry.desugar_of hP h.2 (hP.pairs h.1)⟩
  | .app f es, h => by
    have hf := Every.desugar_of hP h.2.1
    have hes := EveryAll.desugar_of hP h.2.2
    rcases app_cases f es with ⟨ds, key, rfl, rfl⟩ | hne
    · cases strategy with
      | construct => exact ⟨hP.app h.1, hf, hes⟩
      | lookup =>
        obtain ⟨hsearch, hpairs, hbox⟩ := hP.search h.2.1.1 h.1
        exact ⟨hsearch, hP.scanner, hP.scanner, ⟨hpairs, hP.prim _, hf.2.2⟩,
          ⟨hbox, hP.prim _, hes⟩, trivial⟩
    · rw [desugar_app strategy hne]
      exact ⟨hP.app h.1, hf, hes⟩
  | .cond _ _ _, h =>
    ⟨hP.cond h.1, Every.desugar_of hP h.2.1, Every.desugar_of hP h.2.2.1,
      Every.desugar_of hP h.2.2.2⟩
  | .lambda _ _, h => ⟨hP.lambda h.1, EveryAll.desugar_of hP h.2⟩
  | .define _ _, h => ⟨hP.define h.1, Every.desugar_of hP h.2⟩
  | .quote _, h | .number _, h | .boolean _, h | .string _, h | .var _, h | .prim _, h
  | .foreign _, h => h

/-- A property that desugaring keeps at single nodes is kept in sequences. -/
theorem EveryAll.desugar_of (hP : Desugar.Keeps strategy P) : ∀ {es : List Expr},
    EveryAll P es → EveryAll P (desugarAll strategy es)
  | [], _ => trivial
  | _ :: _, h => ⟨Every.desugar_of hP h.1, EveryAll.desugar_of hP h.2⟩

theorem EveryEntry.desugar_of (hP : Desugar.Keeps strategy P) : ∀ {es : List (String × Expr)},
    EveryEntry P es →
      (∀ r ∈ es, P (.quote (.symbol r.1)) ∧
        P (Desugar.call .cons [.quote (.symbol r.1), r.2.desugar strategy])) →
      EveryAll P (desugarEntries strategy es)
  | [], _, _ => trivial
  | _ :: _, h, hpairs => by
    obtain ⟨⟨hkey, hpair⟩, hrest⟩ := List.forall_mem_cons.1 hpairs
    exact ⟨⟨hpair, hP.prim _, hkey, Every.desugar_of hP h.1, trivial⟩,
      EveryEntry.desugar_of hP h.2 hrest⟩

end

end

/-! ### Sound programs -/

/-- A definition is desugared to one, and nothing else is. -/
theorem isDefinition_desugar (e : Expr) :
    (e.desugar strategy).isDefinition = e.isDefinition := by
  cases e with
  | app f es =>
    obtain ⟨f', es', h⟩ := exists_desugar_app strategy f es
    rw [h]
    rfl
  | _ => rfl

theorem not_definition_desugarAll {es : List Expr} (h : ∀ e ∈ es, e.isDefinition = false) :
    ∀ e ∈ desugarAll strategy es, e.isDefinition = false := by
  induction es with
  | nil => exact h
  | cons e es ih =>
    obtain ⟨he, hes⟩ := List.forall_mem_cons.1 h
    exact List.forall_mem_cons.2 ⟨(isDefinition_desugar strategy e).trans he, ih hes⟩

/-- No entry is desugared to a definition. -/
theorem not_definition_desugarEntries (es : List (String × Expr)) :
    ∀ e ∈ desugarEntries strategy es, e.isDefinition = false := by
  induction es with
  | nil => exact fun _ he => nomatch he
  | cons p es ih => exact List.forall_mem_cons.2 ⟨rfl, ih⟩

theorem desugarAll_ne_nil {es : List Expr} (h : es ≠ []) : desugarAll strategy es ≠ [] := by
  cases es with
  | nil => exact absurd rfl h
  | cons => simp [desugarAll]

/-- **Expansion keeps expressions well formed.** -/
theorem keeps_wellFormed : Desugar.Keeps strategy NodeWellFormed where
  prim _ := trivial
  cond := by
    rintro t c a ⟨ht, hc, ha⟩
    exact ⟨(isDefinition_desugar strategy t).trans ht, (isDefinition_desugar strategy c).trans hc,
      (isDefinition_desugar strategy a).trans ha⟩
  lambda h := ⟨h.1, h.2.1, desugarAll_ne_nil strategy h.2.2⟩
  app h := ⟨(isDefinition_desugar strategy _).trans h.1, not_definition_desugarAll strategy h.2⟩
  define h := ⟨h.1, (isDefinition_desugar strategy _).trans h.2⟩
  dict _ := ⟨rfl, not_definition_desugarEntries strategy _⟩
  pairs := by
    rintro es ⟨-, -, hvalues⟩ r hr
    have hvalue := hvalues r.2 (List.mem_map_of_mem hr)
    refine ⟨rfl, rfl, List.forall_mem_cons.2 ⟨rfl, List.forall_mem_singleton.2 ?_⟩⟩
    exact (isDefinition_desugar strategy r.2).trans hvalue
  scanner := by
    simp [Desugar.scanner, Desugar.call, Every, EveryAll, NodeWellFormed, isDefinition]
  search := by
    rintro es key - ⟨-, hkey⟩
    refine ⟨⟨rfl, ?_⟩, ⟨rfl, not_definition_desugarEntries strategy es⟩, rfl,
      not_definition_desugarAll strategy hkey⟩
    simp [Desugar.scanner, Desugar.call, isDefinition]

/-- **Expansion keeps expressions readable**: it quotes no more than symbols. -/
theorem keeps_readable : Desugar.Keeps strategy NodeReadable where
  prim _ := trivial
  cond _ := trivial
  lambda _ := trivial
  app _ := trivial
  define _ := trivial
  dict _ := trivial
  pairs _ _ _ := ⟨trivial, trivial⟩
  scanner := by simp [Desugar.scanner, Desugar.call, Every, EveryAll, NodeReadable]
  search _ _ := ⟨trivial, trivial, trivial⟩

/-- **Expansion keeps programs sound.** -/
theorem EveryAll.desugar {es : List Expr} (h : EveryAll NodeSound es) :
    EveryAll NodeSound (desugarAll strategy es) :=
  EveryAll.and (EveryAll.desugar_of (keeps_wellFormed strategy) (EveryAll.imp (fun _ h => h.1) h))
    (EveryAll.desugar_of (keeps_readable strategy) (EveryAll.imp (fun _ h => h.2) h))

end Expr

end Lambdict
