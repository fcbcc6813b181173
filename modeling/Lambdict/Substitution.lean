import Lambdict.Expr.Basic

/-!
# Substitution

Replacing the free references to some names by expressions, all at once. Two things bind a name: a
lambda binds its parameters in its body, and a definition binds its name in the rest of its
sequence, though not in its own value. Quoted data is never entered.

Substitution does not look out for capture. Whoever substitutes renames first, so that no parameter
is free in what is put in.
-/

namespace Lambdict

/-- What replaces which name; the first entry for a name counts. -/
abbrev Substitution := List (String × Expr)

namespace Substitution

/-- The substitution of expressions for names, taken pairwise; for a repeated name the last
counts. -/
def ofLists (names : List String) (replacements : List Expr) : Substitution :=
  (names.zip replacements).reverse

/-- What replaces a name, if anything does. -/
def find? (σ : Substitution) (x : String) : Option Expr :=
  σ.lookup x

/-- The substitution that leaves one name alone. -/
def without (σ : Substitution) (x : String) : Substitution :=
  σ.filter fun r => r.1 ≠ x

/-- The substitution that leaves several names alone. -/
def withoutAll (σ : Substitution) (xs : List String) : Substitution :=
  σ.filter fun r => r.1 ∉ xs

theorem mem_of_find? {σ : Substitution} {x : String} {e : Expr} (h : σ.find? x = some e) :
    (x, e) ∈ σ := by
  obtain ⟨l₁, l₂, rfl, -⟩ := List.lookup_eq_some_iff.1 h
  simp

end Substitution

namespace Expr

mutual

/-- **Substitution** in an expression. -/
def subst (σ : Substitution) : Expr → Expr
  | .var x => (σ.find? x).getD (.var x)
  | .cond t c a => .cond (t.subst σ) (c.subst σ) (a.subst σ)
  | .lambda ps b => .lambda ps (substSeq (σ.withoutAll ps) b)
  | .app f es => .app (f.subst σ) (substEach σ es)
  | .define x e => .define x (e.subst σ)
  | .dict es => .dict (substEntries σ es)
  | .number n => .number n
  | .boolean b => .boolean b
  | .string s => .string s
  | .prim p => .prim p
  | .quote d => .quote d
  | .foreign v => .foreign v
termination_by structural e => e

/-- Substitution in a sequence, where a definition ends the scope of its name for the rest. -/
def substSeq (σ : Substitution) : List Expr → List Expr
  | [] => []
  | .define x e :: es => .define x (e.subst σ) :: substSeq (σ.without x) es
  | e :: es => e.subst σ :: substSeq σ es
termination_by structural es => es

/-- Substitution in each of several expressions. -/
def substEach (σ : Substitution) : List Expr → List Expr
  | [] => []
  | e :: es => e.subst σ :: substEach σ es
termination_by structural es => es

/-- Substitution in the values of a dictionary literal. -/
def substEntries (σ : Substitution) : List (String × Expr) → List (String × Expr)
  | [] => []
  | (k, e) :: es => (k, e.subst σ) :: substEntries σ es
termination_by structural es => es

end

theorem keys_substEntries (σ : Substitution) (es : List (String × Expr)) :
    (substEntries σ es).map Prod.fst = es.map Prod.fst := by
  induction es with
  | nil => rfl
  | cons p es ih => simp only [substEntries, List.map_cons, ih]

theorem values_substEntries (σ : Substitution) (es : List (String × Expr)) :
    (substEntries σ es).map Prod.snd = substEach σ (es.map Prod.snd) := by
  induction es with
  | nil => rfl
  | cons p es ih => simp only [substEntries, substEach, List.map_cons, ih]

end Expr

/-- Substitution of expressions for names in a program, which needs as many of the one as of the
other. -/
def substituteAll (names : List String) (replacements : List Expr) (program : List Expr) :
    Except Abort (List Expr) :=
  if names.length = replacements.length then
    .ok (Expr.substSeq (.ofLists names replacements) program)
  else .error .replacementCount

end Lambdict
