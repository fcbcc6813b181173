import Lambdict.Proofs.Expansion
import Lambdict.Proofs.Reading.Atoms
import Lambdict.Proofs.Reading.Syntax

/-!
# The forms of expressions

Between an expression and its text stands its *form* (`Expr.form`): the S-expression that is
written.  Here the form is shown to be parsed as the expression again (`Expr.Every.parses_form`),
with one exception.  A call of `dict` without operands has the same form as the empty dictionary
literal and is parsed as that (`Expr.emptyDicts`).

Not every expression has this property.  It takes names that are read as names, calls that are not
taken for special forms, and calls of `dict` whose operands are not taken for entries
(`Expr.NodeWritten`).
-/

namespace Lambdict

/-- A name that a form may bind. -/
def IsBindable (x : String) : Prop := IsName x ∧ Primitive.ofName? x = none

/-! ## Data -/

/-- Data as a text gives it: names for symbols, numbers that can be read, and no object placed
yet. -/
def Value.Written : Value → Prop
  | .number n => n.Written
  | .boolean _ | .string _ | .empty => True
  | .symbol x => IsName x
  | .pair id h t => id = .given 0 ∧ h.Written ∧ t.Written
  | _ => False

/-- Items in front of a form: it goes on as their list, or it is their last tail. -/
def SExpr.prepend (xs : List SExpr) : SExpr → SExpr
  | .list ys => .list (xs ++ ys)
  | .dotted ys t => .dotted (xs ++ ys) t
  | x => .dotted xs x

/-- The form of a datum. -/
def Value.form : Value → SExpr
  | .number n => .number n
  | .boolean b => .boolean b
  | .string s => .string s
  | .symbol x => .symbol x
  | .pair _ h t => SExpr.prepend [h.form] t.form
  | _ => .list []

/-- Items are put before others one after another. -/
theorem SExpr.prepend_prepend (xs ys : List SExpr) (x : SExpr) :
    (x.prepend ys).prepend xs = x.prepend (xs ++ ys) := by
  cases x <;> simp [prepend]

/-- An item that is put before others is the head of a pair. -/
theorem SExpr.toDatum_prepend (x y : SExpr) :
    (y.prepend [x]).toDatum = .pair (.given 0) x.toDatum y.toDatum := by
  cases y <;> rfl

/-- **A datum is read back from its form.** -/
theorem Value.Written.toDatum_form : ∀ {d : Value}, d.Written → d.form.toDatum = d
  | .pair _ h t, hd => by
    obtain ⟨rfl, hh, ht⟩ := hd
    rw [Value.form, SExpr.toDatum_prepend, hh.toDatum_form, ht.toDatum_form]
  | .number _, _ | .boolean _, _ | .string _, _ | .symbol _, _ | .empty, _ => rfl

/-! ## Expressions -/

namespace Expr

mutual

/-- **The form of an expression.** -/
def form : Expr → SExpr
  | .number n => .number n
  | .boolean b => .boolean b
  | .string s => .string s
  | .var x => .symbol x
  | .prim p => .symbol p.name
  | .cond t c a => .list [.symbol "if", t.form, c.form, a.form]
  | .lambda ps b => .list (.symbol "lambda" :: .list (ps.map .symbol) :: formAll b)
  | .app f es => .list (f.form :: formAll es)
  | .define x e => .list [.symbol "define", .symbol x, e.form]
  | .quote d => .list [.symbol "quote", d.form]
  | .dict es => .list (.symbol "dict" :: formEntries es)
  | .foreign _ => .list []

/-- The forms of several expressions. -/
def formAll : List Expr → List SExpr
  | [] => []
  | e :: es => e.form :: formAll es

/-- The forms of the entries of a dictionary literal. -/
def formEntries : List (String × Expr) → List SExpr
  | [] => []
  | (k, e) :: es => .list [.symbol k, e.form] :: formEntries es

end

mutual

/-- An expression with each call of `dict` without operands replaced by the empty literal. -/
def emptyDicts : Expr → Expr
  | .app (.prim .dict) [] => .dict []
  | .app f es => .app f.emptyDicts (emptyDictsAll es)
  | .cond t c a => .cond t.emptyDicts c.emptyDicts a.emptyDicts
  | .lambda ps b => .lambda ps (emptyDictsAll b)
  | .define x e => .define x e.emptyDicts
  | .dict es => .dict (emptyDictsEntries es)
  | .number n => .number n
  | .boolean b => .boolean b
  | .string s => .string s
  | .var x => .var x
  | .prim p => .prim p
  | .quote d => .quote d
  | .foreign v => .foreign v

/-- The same of several expressions. -/
def emptyDictsAll : List Expr → List Expr
  | [] => []
  | e :: es => e.emptyDicts :: emptyDictsAll es

/-- The same of the values of a dictionary literal. -/
def emptyDictsEntries : List (String × Expr) → List (String × Expr)
  | [] => []
  | (k, e) :: es => (k, e.emptyDicts) :: emptyDictsEntries es

end

theorem formAll_eq_map (es : List Expr) : formAll es = es.map form := by
  induction es with
  | nil => rfl
  | cons e es ih => rw [formAll, ih, List.map_cons]

theorem length_formEntries (es : List (String × Expr)) : (formEntries es).length = es.length := by
  induction es with
  | nil => rfl
  | cons p es ih => simp [formEntries, ih]

/-- Empty literals in the values of entries change no key. -/
theorem emptyDictsEntries_keys (es : List (String × Expr)) :
    (emptyDictsEntries es).map Prod.fst = es.map Prod.fst := by
  induction es with
  | nil => rfl
  | cons p es ih => simp [emptyDictsEntries, ih]

/-- Whether an expression is written as a name. -/
def isSymbol : Expr → Bool
  | .var _ | .prim _ => true
  | _ => false

/-- **Whether the form of an expression would be taken for an entry** of a dictionary literal. -/
def isEntry (e : Expr) : Bool := e.form.isEntry

/-- A list has the shape of an entry if it has a symbol and one item more. -/
theorem isEntry_cons_iff {f : SExpr} {xs : List SExpr} :
    (SExpr.list (f :: xs)).isEntry = true ↔ (∃ x, f = .symbol x) ∧ xs.length = 1 := by
  unfold SExpr.isEntry
  split
  · next heq =>
    cases heq
    exact ⟨fun _ => ⟨⟨_, rfl⟩, rfl⟩, fun _ => rfl⟩
  · next hne =>
    constructor
    · intro h
      cases h
    · rintro ⟨⟨x, rfl⟩, hlen⟩
      obtain ⟨y, rfl⟩ := List.length_eq_one_iff.1 hlen
      exact absurd rfl (hne x y)

theorem length_formAll (es : List Expr) : (formAll es).length = es.length := by
  rw [formAll_eq_map, List.length_map]

/-- An expression that is written as a symbol is a variable or a primitive. -/
theorem isSymbol_of_form {f : Expr} {x : String} (h : f.form = .symbol x) : f.isSymbol = true := by
  cases f with
  | var | prim => rfl
  | _ => cases h

/-! ### What is asked of a node -/

/-- **What can be written so that it is read again**, as far as the outermost node goes. -/
def NodeWritten : Expr → Prop
  | .number n => n.Written
  | .var x => IsBindable x
  | .lambda ps _ => ∀ p ∈ ps, IsBindable p
  | .define x _ => IsBindable x ∧ x ≠ "."
  | .app f es => (∀ x, f = .var x → Keyword.ofName? x = none) ∧
      (f = .prim .dict → ∀ e ∈ es, e.isEntry = false)
  | .quote d => d.Written
  | .dict es => ∀ k ∈ es.map Prod.fst, IsName k ∧ k ≠ "."
  | .foreign _ => False
  | .boolean _ | .string _ | .prim _ | .cond _ _ _ => True

/-- What an application is written with begins no special form. -/
theorem keyword?_form {f : Expr} (hvar : ∀ x, f = .var x → Keyword.ofName? x = none)
    (hdict : f ≠ .prim .dict) : f.form.keyword? = none := by
  cases f with
  | var x => exact hvar x rfl
  | prim p =>
    cases p with
    | dict => exact absurd rfl hdict
    | _ => decide
  | _ => rfl

/-- An application stays one, unless it is the empty call of `dict`. -/
theorem emptyDicts_app {f : Expr} {es : List Expr} (h : f = .prim .dict → es ≠ []) :
    (Expr.app f es).emptyDicts = .app f.emptyDicts (emptyDictsAll es) := by
  rw [emptyDicts]
  rintro rfl rfl
  exact h rfl rfl

/-! ### The form is parsed as the expression -/

mutual

/-- **The form of an expression is parsed as that expression**, empty literals in place of calls of
`dict` without operands. -/
theorem Every.parses_form : ∀ {e : Expr} {top : Bool}, e.Every NodeWellFormed →
    e.Every NodeWritten → (top = false → e.isDefinition = false) →
    Parses top e.form e.emptyDicts
  | .number n, _, _, _, _ => .number n
  | .boolean b, _, _, _, _ => .boolean b
  | .string s, _, _, _, _ => .string s
  | .var x, _, _, hw, _ => .var hw.2
  | .prim p, _, _, _, _ => .prim (Primitive.ofName?_name p)
  | .quote d, top, _, hw, _ => by
    have hd : d.Written := hw
    have hquote : Parses top _ _ := .quote d.form
    rwa [hd.toDatum_form] at hquote
  | .cond t c a, _, hf, hw, _ =>
    .ifElse (hf.2.1.parses_form hw.2.1 fun _ => hf.1.1)
      (hf.2.2.1.parses_form hw.2.2.1 fun _ => hf.1.2.1)
      (hf.2.2.2.parses_form hw.2.2.2 fun _ => hf.1.2.2)
  | .define x e, top, hf, hw, hd => by
    cases top with
    | false => exact nomatch hd rfl
    | true => exact .define hw.1.1.2 (hf.2.parses_form hw.2 fun _ => hf.1.2)
  | .lambda ps b, _, hf, hw, _ => by
    refine .lambda (fun p hp => (hw.1 p hp).2) ⟨hf.1.1, hf.1.2.1⟩ ?_
      (EveryAll.parses_form hf.2 hw.2 fun h => nomatch h)
    rw [formAll_eq_map]
    simpa using hf.1.2.2
  | .dict es, _, hf, hw, _ => by
    refine .dict (EveryEntry.parses_form hf.2 hw.2 hf.1.2.2) ?_
    rw [emptyDictsEntries_keys]
    exact hf.1.2.1
  | .app f es, _, hf, hw, _ => by
    have hargs : ParsesAll false (formAll es) (emptyDictsAll es) :=
      EveryAll.parses_form hf.2.2 hw.2.2 fun _ => hf.1.2
    by_cases hdict : f = .prim .dict
    · subst hdict
      by_cases hes : es = []
      · subst hes
        exact .dict .nil .nil
      · rw [emptyDicts_app fun _ => hes]
        refine .dictCall ?_ ?_ hargs
        · rw [formAll_eq_map]
          simpa using hes
        · intro x hx
          rw [formAll_eq_map] at hx
          obtain ⟨e, he, rfl⟩ := List.mem_map.1 hx
          exact hw.1.2 rfl e he
    · rw [emptyDicts_app fun h => absurd h hdict]
      exact .app (keyword?_form hw.1.1 hdict) (hf.2.1.parses_form hw.2.1 fun _ => hf.1.1) hargs
  | .foreign _, _, hf, _, _ => hf.elim

/-- The forms of a sequence denote its elements. -/
theorem EveryAll.parses_form {top : Bool} : ∀ {es : List Expr}, EveryAll NodeWellFormed es →
    EveryAll NodeWritten es → (top = false → ∀ e ∈ es, e.isDefinition = false) →
    ParsesAll top (formAll es) (emptyDictsAll es)
  | [], _, _, _ => .nil
  | e :: _, hf, hw, hd =>
    .cons (hf.1.parses_form hw.1 fun h => hd h e (List.mem_cons_self ..))
      (EveryAll.parses_form hf.2 hw.2 fun h d hmem => hd h d (List.mem_cons_of_mem _ hmem))

/-- The forms of entries denote the entries. -/
theorem EveryEntry.parses_form : ∀ {es : List (String × Expr)}, EveryEntry NodeWellFormed es →
    EveryEntry NodeWritten es → (∀ e ∈ es.map Prod.snd, e.isDefinition = false) →
    ParsesEntries (formEntries es) (emptyDictsEntries es)
  | [], _, _, _ => .nil
  | (k, e) :: es, hf, hw, hd => by
    obtain ⟨he, hes⟩ := List.forall_mem_cons.1 hd
    exact .cons (hf.1.parses_form hw.1 fun _ => he) (EveryEntry.parses_form hf.2 hw.2 hes)

end

end Expr

end Lambdict
