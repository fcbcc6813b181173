import Lambdict.Desugar
import Lambdict.Eval.Basic

/-!
# Well-formed expressions

A property of single nodes is lifted to whole expressions: `Expr.Every P e` says that `P` holds of
`e` and of every expression inside it, quoted data left aside.  Three properties are used so.

*Well-formed* (`Expr.WellFormed`) is what the checks on expressions ask for: names that are not
empty, parameters and keys without repetition, bodies, definitions only where a sequence has its
elements.  *Readable* (`Expr.Readable`) says that what is quoted is data as a text can write it, so
that no closure and no dictionary stands under a quote.  *Names within* a set (`Expr.NamesWithin`)
says that every variable, parameter and defined name belongs to it.

Placing objects changes none of these (`Expr.WellFormed.place` and its like).
-/

namespace Lambdict

/-- Data as a text can write it: atoms, and pairs of such data. -/
def Value.Readable : Value → Prop
  | .number _ | .boolean _ | .string _ | .symbol _ | .empty => True
  | .pair _ h t => h.Readable ∧ t.Readable
  | _ => False

/-- Readable data stays readable when it is placed. -/
theorem Value.Readable.place : ∀ {d : Value} (n : Nat), d.Readable → (d.place n).1.Readable
  | .pair _ _ _, _, h => ⟨Readable.place _ h.1, Readable.place _ h.2⟩
  | .number _, _, _ | .boolean _, _, _ | .string _, _, _ | .symbol _, _, _ | .empty, _, _ => trivial

namespace Expr

mutual

/-- A property of an expression and of all expressions inside it, quoted data left aside. -/
def Every (P : Expr → Prop) : Expr → Prop
  | .cond t c a => P (.cond t c a) ∧ t.Every P ∧ c.Every P ∧ a.Every P
  | .lambda ps b => P (.lambda ps b) ∧ EveryAll P b
  | .app f es => P (.app f es) ∧ f.Every P ∧ EveryAll P es
  | .define x e => P (.define x e) ∧ e.Every P
  | .dict es => P (.dict es) ∧ EveryEntry P es
  | .number n => P (.number n)
  | .boolean b => P (.boolean b)
  | .string s => P (.string s)
  | .var x => P (.var x)
  | .prim p => P (.prim p)
  | .quote d => P (.quote d)
  | .foreign v => P (.foreign v)

/-- The same of several expressions. -/
def EveryAll (P : Expr → Prop) : List Expr → Prop
  | [] => True
  | e :: es => e.Every P ∧ EveryAll P es

/-- The same of the values of a dictionary literal. -/
def EveryEntry (P : Expr → Prop) : List (String × Expr) → Prop
  | [] => True
  | (_, e) :: es => e.Every P ∧ EveryEntry P es

end

variable {P Q : Expr → Prop}

/-- A property of all parts of a list is one of each of its elements. -/
theorem everyAll_iff {es : List Expr} : EveryAll P es ↔ ∀ e ∈ es, e.Every P := by
  induction es with
  | nil => simp [EveryAll]
  | cons e es ih => simp [EveryAll, ih]

theorem everyEntry_iff {es : List (String × Expr)} :
    EveryEntry P es ↔ EveryAll P (es.map Prod.snd) := by
  induction es with
  | nil => simp [EveryEntry, EveryAll]
  | cons p es ih => simp [EveryEntry, EveryAll, ih]

mutual

/-- What follows from a property at single nodes follows in the whole expression. -/
theorem Every.imp (h : ∀ e, P e → Q e) : ∀ {e : Expr}, e.Every P → e.Every Q
  | .cond _ _ _, hp => ⟨h _ hp.1, hp.2.1.imp h, hp.2.2.1.imp h, hp.2.2.2.imp h⟩
  | .lambda _ _, hp => ⟨h _ hp.1, EveryAll.imp h hp.2⟩
  | .app _ _, hp => ⟨h _ hp.1, hp.2.1.imp h, EveryAll.imp h hp.2.2⟩
  | .define _ _, hp => ⟨h _ hp.1, hp.2.imp h⟩
  | .dict _, hp => ⟨h _ hp.1, EveryEntry.imp h hp.2⟩
  | .number _, hp | .boolean _, hp | .string _, hp | .var _, hp | .prim _, hp | .quote _, hp
  | .foreign _, hp => h _ hp

theorem EveryAll.imp (h : ∀ e, P e → Q e) : ∀ {es : List Expr}, EveryAll P es → EveryAll Q es
  | [], _ => trivial
  | _ :: _, hp => ⟨hp.1.imp h, EveryAll.imp h hp.2⟩

theorem EveryEntry.imp (h : ∀ e, P e → Q e) :
    ∀ {es : List (String × Expr)}, EveryEntry P es → EveryEntry Q es
  | [], _ => trivial
  | _ :: _, hp => ⟨hp.1.imp h, EveryEntry.imp h hp.2⟩

end

mutual

/-- Two properties of all nodes hold of all nodes together. -/
theorem Every.and : ∀ {e : Expr}, e.Every P → e.Every Q → e.Every fun e => P e ∧ Q e
  | .cond _ _ _, hp, hq =>
    ⟨⟨hp.1, hq.1⟩, hp.2.1.and hq.2.1, hp.2.2.1.and hq.2.2.1, hp.2.2.2.and hq.2.2.2⟩
  | .lambda _ _, hp, hq => ⟨⟨hp.1, hq.1⟩, EveryAll.and hp.2 hq.2⟩
  | .app _ _, hp, hq => ⟨⟨hp.1, hq.1⟩, hp.2.1.and hq.2.1, EveryAll.and hp.2.2 hq.2.2⟩
  | .define _ _, hp, hq => ⟨⟨hp.1, hq.1⟩, hp.2.and hq.2⟩
  | .dict _, hp, hq => ⟨⟨hp.1, hq.1⟩, EveryEntry.and hp.2 hq.2⟩
  | .number _, hp, hq | .boolean _, hp, hq | .string _, hp, hq | .var _, hp, hq | .prim _, hp, hq
  | .quote _, hp, hq | .foreign _, hp, hq => ⟨hp, hq⟩

theorem EveryAll.and : ∀ {es : List Expr}, EveryAll P es → EveryAll Q es →
    EveryAll (fun e => P e ∧ Q e) es
  | [], _, _ => trivial
  | _ :: _, hp, hq => ⟨hp.1.and hq.1, EveryAll.and hp.2 hq.2⟩

theorem EveryEntry.and : ∀ {es : List (String × Expr)}, EveryEntry P es → EveryEntry Q es →
    EveryEntry (fun e => P e ∧ Q e) es
  | [], _, _ => trivial
  | _ :: _, hp, hq => ⟨hp.1.and hq.1, EveryEntry.and hp.2 hq.2⟩

end

/-! ## The three properties -/

/-- What the checks ask of the outermost node of an expression. -/
def NodeWellFormed : Expr → Prop
  | .var x => x ≠ ""
  | .cond t c a => t.isDefinition = false ∧ c.isDefinition = false ∧ a.isDefinition = false
  | .lambda ps b => "" ∉ ps ∧ ps.Nodup ∧ b ≠ []
  | .app f es => f.isDefinition = false ∧ ∀ e ∈ es, e.isDefinition = false
  | .define x e => x ≠ "" ∧ e.isDefinition = false
  | .quote d => d.isDict = false
  | .dict es => "" ∉ es.map Prod.fst ∧ (es.map Prod.fst).Nodup ∧
      ∀ e ∈ es.map Prod.snd, e.isDefinition = false
  | .foreign _ => False
  | .number _ | .boolean _ | .string _ | .prim _ => True

/-- **Well-formed** expressions: every node passes the checks on expressions. -/
def WellFormed (e : Expr) : Prop := e.Every NodeWellFormed

/-- What is quoted at the outermost node is readable data. -/
def NodeReadable : Expr → Prop
  | .quote d => d.Readable
  | _ => True

/-- **Readable** expressions: all quoted data is data as a text can write it. -/
def Readable (e : Expr) : Prop := e.Every NodeReadable

/-- What is asked of each node of a program: that it is well formed, and that it quotes readable
data. -/
def NodeSound (e : Expr) : Prop := e.NodeWellFormed ∧ e.NodeReadable

/-- A program of well-formed and readable expressions is sound. -/
theorem everyAll_sound {p : List Expr} (h : ∀ e ∈ p, e.WellFormed ∧ e.Readable) :
    EveryAll NodeSound p :=
  everyAll_iff.2 fun e he => (h e he).1.and (h e he).2

/-- The names at the outermost node of an expression satisfy a predicate. -/
def NodeNames (R : String → Prop) : Expr → Prop
  | .var x => R x
  | .lambda ps _ => ∀ p ∈ ps, R p
  | .define x _ => R x
  | _ => True

/-- **Names within a set**: every variable, parameter and defined name of the expression. -/
def NamesWithin (R : String → Prop) (e : Expr) : Prop := e.Every (NodeNames R)

/-- Names within a set are within every larger one. -/
theorem NodeNames.imp {R S : String → Prop} (h : ∀ x, R x → S x) (e : Expr)
    (he : NodeNames R e) : NodeNames S e := by
  cases e with
  | lambda ps b => exact fun p hp => h p (he p hp)
  | var x | define x e => exact h x he
  | _ => trivial

/-! ## Placement -/

mutual

/-- A property that placing keeps at single nodes is kept in whole expressions. -/
theorem Every.place (h : ∀ e n, P e → P (e.place n).1) :
    ∀ {e : Expr} (n : Nat), e.Every P → (e.place n).1.Every P
  | .cond _ _ _, n, hp => ⟨h _ n hp.1, hp.2.1.place h _, hp.2.2.1.place h _, hp.2.2.2.place h _⟩
  | .lambda _ _, n, hp => ⟨h _ n hp.1, EveryAll.place h _ hp.2⟩
  | .app _ _, n, hp => ⟨h _ n hp.1, hp.2.1.place h _, EveryAll.place h _ hp.2.2⟩
  | .define _ _, n, hp => ⟨h _ n hp.1, hp.2.place h _⟩
  | .dict _, n, hp => ⟨h _ n hp.1, EveryEntry.place h _ hp.2⟩
  | .number _, n, hp | .boolean _, n, hp | .string _, n, hp | .var _, n, hp | .prim _, n, hp
  | .quote _, n, hp | .foreign _, n, hp => h _ n hp

theorem EveryAll.place (h : ∀ e n, P e → P (e.place n).1) :
    ∀ {es : List Expr} (n : Nat), EveryAll P es → EveryAll P (placeAll n es).1
  | [], _, _ => trivial
  | _ :: _, n, hp => ⟨hp.1.place h n, EveryAll.place h _ hp.2⟩

theorem EveryEntry.place (h : ∀ e n, P e → P (e.place n).1) :
    ∀ {es : List (String × Expr)} (n : Nat), EveryEntry P es → EveryEntry P (placeEntries n es).1
  | [], _, _ => trivial
  | (_, _) :: _, n, hp => ⟨hp.1.place h n, EveryEntry.place h _ hp.2⟩

end

/-- A definition stays one when it is placed, and nothing else becomes one. -/
theorem isDefinition_place (e : Expr) (n : Nat) : (e.place n).1.isDefinition = e.isDefinition := by
  cases e <;> rfl

theorem placeAll_ne_nil {es : List Expr} (n : Nat) (h : es ≠ []) : (placeAll n es).1 ≠ [] := by
  cases es with
  | nil => exact absurd rfl h
  | cons => simp [placeAll]

theorem not_definition_placeAll {es : List Expr} (n : Nat)
    (h : ∀ e ∈ es, e.isDefinition = false) :
    ∀ e ∈ (placeAll n es).1, e.isDefinition = false := by
  induction es generalizing n with
  | nil => exact h
  | cons e es ih =>
    intro d hd
    rcases List.mem_cons.1 hd with rfl | hd
    · rw [isDefinition_place]
      exact h e (List.mem_cons_self ..)
    · exact ih _ (fun e he => h e (List.mem_cons_of_mem _ he)) d hd

/-- To place the entries of a literal is to place their values, one after another. -/
theorem placeEntries_eq (n : Nat) (es : List (String × Expr)) :
    (placeEntries n es).1.map Prod.fst = es.map Prod.fst ∧
      (placeEntries n es).1.map Prod.snd = (placeAll n (es.map Prod.snd)).1 ∧
      (placeEntries n es).2 = (placeAll n (es.map Prod.snd)).2 := by
  induction es generalizing n with
  | nil => exact ⟨rfl, rfl, rfl⟩
  | cons p es ih =>
    obtain ⟨h₁, h₂, h₃⟩ := ih (p.2.place n).2
    simp only [placeEntries, placeAll, List.map_cons, h₁, h₂, h₃, and_self]

/-- The checks of a node pass as before when it is placed. -/
theorem NodeWellFormed.place (e : Expr) (n : Nat) (h : NodeWellFormed e) :
    NodeWellFormed (e.place n).1 := by
  cases e with
  | cond t c a =>
    exact ⟨(isDefinition_place t _).trans h.1, (isDefinition_place c _).trans h.2.1,
      (isDefinition_place a _).trans h.2.2⟩
  | lambda ps b => exact ⟨h.1, h.2.1, placeAll_ne_nil n h.2.2⟩
  | app f es => exact ⟨(isDefinition_place f n).trans h.1, not_definition_placeAll _ h.2⟩
  | define x e => exact ⟨h.1, (isDefinition_place e n).trans h.2⟩
  | quote d => cases d <;> first | rfl | exact h
  | dict es =>
    obtain ⟨hk, hv, -⟩ := placeEntries_eq n es
    simp only [Expr.place, NodeWellFormed, hk, hv]
    exact ⟨h.1, h.2.1, not_definition_placeAll n h.2.2⟩
  | _ => exact h

/-- A readable quotation is placed as one. -/
theorem NodeReadable.place (e : Expr) (n : Nat) (h : NodeReadable e) :
    NodeReadable (e.place n).1 := by
  cases e with
  | quote d => exact Value.Readable.place n h
  | _ => trivial

/-- A well-formed expression is placed as one. -/
theorem WellFormed.place {e : Expr} (n : Nat) (h : e.WellFormed) : (e.place n).1.WellFormed :=
  Every.place NodeWellFormed.place n h

/-- A readable expression is placed as one. -/
theorem Readable.place {e : Expr} (n : Nat) (h : e.Readable) : (e.place n).1.Readable :=
  Every.place NodeReadable.place n h

end Expr

/-! ## The names of a program -/

namespace Expr

/-- An expression with names in a set has names in every larger one. -/
theorem NamesWithin.imp {R S : String → Prop} (h : ∀ x, R x → S x) {e : Expr}
    (he : e.NamesWithin R) : e.NamesWithin S :=
  Every.imp (NodeNames.imp h) he

theorem everyAll_names_imp {R S : String → Prop} (h : ∀ x, R x → S x) {es : List Expr}
    (hes : EveryAll (NodeNames R) es) : EveryAll (NodeNames S) es :=
  EveryAll.imp (NodeNames.imp h) hes

end Expr

/-- What is known of each node of a program whose names are reserved. -/
def Expr.NodeReady (names : NameSet) (e : Expr) : Prop :=
  e.NodeSound ∧ e.NodeNames (· ∈ names)

end Lambdict
