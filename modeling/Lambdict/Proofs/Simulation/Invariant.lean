import Lambdict.Proofs.Fresh
import Lambdict.Proofs.Simulation.Eval

/-!
# What a run keeps of its store

A run changes its store in two ways only: it makes an object, or it renames a body before a call.
So whatever these two keep is kept by evaluation as a whole, however deep its calls go and however
it ends (`Expr.evalAt_keeps`).

A run is compared with itself for that, under the simplest of all simulations: everything is related
to itself, and the stores that fit are the two copies of one store that has the property
(`Simulation.keeping`).  The case at hand is the supply of names.  Evaluation reserves no name, and
the numbers do not fall (`Expr.evalAt_names`).
-/

namespace Lambdict

/-- A property of stores that making an object and renaming a body keep. -/
structure Store.Kept (I : Store → Prop) : Prop where
  next : ∀ s, I s → I s.next
  body : ∀ s b, I s → I (s.renaming b)

namespace Simulation

theorem layer_value_self {v v' : Value} :
    v = v' ↔ Value.Layer True Eq Eq (fun ps b ps' b' => ps = ps' ∧ b = b') v v' := by
  constructor
  · rintro rfl
    cases v with
    | pair => exact .pair rfl rfl rfl
    | closure => exact .closure rfl ⟨rfl, rfl⟩
    | dict => exact .dict rfl (List.forall₂_same.2 fun _ _ => ⟨rfl, rfl⟩)
    | code => exact .code rfl trivial
    | sequence => exact .sequence rfl trivial
    | _ => exact .plain rfl
  · intro h
    cases h with
    | plain => rfl
    | pair hi hh ht => rw [hi, hh, ht]
    | closure hi hc => rw [hi, hc.1, hc.2]
    | dict hi hes =>
      have heq := hes.imp fun p q (h : EntryRel Eq p q) => Prod.ext h.1 h.2
      rw [List.forall₂_eq_eq_eq] at heq
      rw [hi, heq]
    | code hi => rw [hi]
    | sequence hi => rw [hi]

theorem layer_expr_self (e : Expr) :
    Expr.Layer False Eq Eq (fun ps b ps' b' => ps = ps' ∧ b = b') e e := by
  cases e with
  | number n => exact .number n
  | boolean b => exact .boolean b
  | string s => exact .string s
  | var x => exact .var x
  | prim p => exact .prim p
  | cond => exact .cond rfl rfl rfl
  | lambda => exact .lambda ⟨rfl, rfl⟩
  | app => exact .app rfl (List.forall₂_same.2 fun _ _ => rfl)
  | define x => exact .define x rfl
  | quote => exact .quote rfl
  | dict => exact .dict (List.forall₂_same.2 fun _ _ => ⟨rfl, rfl⟩)
  | foreign v => exact .foreign v

/-- **A run beside itself**, on a store that has a property. -/
def keeping {I : Store → Prop} (h : Store.Kept I) : Simulation where
  World := Unit
  le _ _ := True
  fits _ s s' := s = s' ∧ I s
  same _ := Eq
  value _ := Eq
  closure _ ps b ps' b' := ps = ps' ∧ b = b'
  expr _ := Eq
  searches := False
  outer := True
  le_refl _ := trivial
  le_trans _ _ := trivial
  value_mono _ hv := hv
  closure_mono _ hc := hc
  expr_mono _ he := he
  one_to_one _ hi hi' := by rw [hi, hi']
  next := by
    rintro _ s _ ⟨rfl, hs⟩
    exact ⟨(), trivial, ⟨rfl, h.next s hs⟩, rfl⟩
  next_left := False.elim
  next_right := False.elim
  value_iff := layer_value_self
  writable_eq := by
    rintro _ _ _ rfl
    rfl
  expr_cases := by
    rintro _ e _ rfl
    exact layer_expr_self e
  arity_eq hc := by rw [hc.1]
  admits_iff := by
    rintro _ _ _ _ _ _ _ ⟨-, rfl⟩ ⟨rfl, -⟩
    rfl
  call := by
    rintro _ ps b _ _ s _ args args' ⟨rfl, rfl⟩ ⟨rfl, hs⟩ hargs -
    rw [List.forall₂_eq_eq_eq] at hargs
    subst hargs
    refine ⟨(), trivial, ⟨rfl, h.body s b hs⟩, ?_⟩
    cases (Value.literals? args).mapError Error.condition with
    | error e => exact .error (.refl e)
    | ok ls => exact .ok (List.forall₂_same.2 fun _ _ => rfl)

end Simulation

/-- **What a store keeps when an object is made and when a body is renamed, evaluation keeps.** -/
theorem Expr.evalAt_keeps {I : Store → Prop} (h : Store.Kept I) {depth : Nat} {env : Environment}
    {e : Expr} {s t : Store} {r : Except Error Value} (hs : I s)
    (he : e.evalAt depth env s = some (r, t)) : I t := by
  have henv : (Simulation.keeping h).EnvRel () env env := List.forall₂_same.2 fun _ _ => ⟨rfl, rfl⟩
  have hruns := Simulation.evalAt_runs ((Simulation.keeping h).applies depth) e rfl henv
  obtain ⟨k, r', t', -, hk, he', -, ⟨rfl, ht⟩, -⟩ := (hruns s s ⟨rfl, hs⟩).2 r t he
  exact ht

/-- What evaluation keeps, applying a value keeps. -/
theorem Value.applyAt_keeps {I : Store → Prop} (h : Store.Kept I) {depth : Nat} {proc : Value}
    {args : List Value} {s t : Store} {r : Except Error Value} (hs : I s)
    (ha : proc.applyAt depth args s = some (r, t)) : I t := by
  have hargs : List.Forall₂ (Eq (α := Value)) args args := List.forall₂_same.2 fun _ _ => rfl
  have hruns := (Simulation.keeping h).applies depth (W := ()) (rfl : proc = proc) hargs
  obtain ⟨k, r', t', -, hk, ha', -, ⟨rfl, ht⟩, -⟩ := (hruns s s ⟨rfl, hs⟩).2 r t ha
  exact ht

/-! ## The supply of names -/

namespace NameSupply

@[simp]
theorem reserved_freshAll (s : NameSupply) (xs : List String) :
    (s.freshAll xs).2.reserved = s.reserved := by
  induction xs generalizing s with
  | nil => rfl
  | cons x xs ih => exact (ih _).trans (s.reserved_fresh x)

end NameSupply

namespace Expr

mutual

theorem reserved_rename : ∀ (e : Expr) (s : NameSupply), (e.rename s).2.reserved = s.reserved
  | .lambda ps b, s => (NameSupply.reserved_freshAll _ ps).trans (reserved_renameAll b s)
  | .cond t c a, s =>
    ((reserved_rename a _).trans (reserved_rename c _)).trans (reserved_rename t s)
  | .app f es, s => (reserved_renameAll es _).trans (reserved_rename f s)
  | .define _ e, s => reserved_rename e s
  | .dict es, s => reserved_renameEntries es s
  | .number _, _ | .boolean _, _ | .string _, _ | .var _, _ | .prim _, _ | .quote _, _
  | .foreign _, _ => rfl

theorem reserved_renameAll : ∀ (es : List Expr) (s : NameSupply),
    (renameAll es s).2.reserved = s.reserved
  | [], _ => rfl
  | e :: es, s => (reserved_renameAll es _).trans (reserved_rename e s)

theorem reserved_renameEntries : ∀ (es : List (String × Expr)) (s : NameSupply),
    (renameEntries es s).2.reserved = s.reserved
  | [], _ => rfl
  | (_, e) :: es, s => (reserved_renameEntries es _).trans (reserved_rename e s)

end

/-- **Evaluation reserves no name, and the numbers do not fall.** -/
theorem evalAt_names {depth : Nat} {env : Environment} {e : Expr} {s t : Store}
    {r : Except Error Value} (he : e.evalAt depth env s = some (r, t)) :
    t.names.reserved = s.names.reserved ∧ s.names.counter ≤ t.names.counter := by
  refine evalAt_keeps (I := fun u => u.names.reserved = s.names.reserved ∧
    s.names.counter ≤ u.names.counter) ⟨fun _ hu => hu, fun u b hu => ⟨?_, ?_⟩⟩
    ⟨rfl, Int.le_refl _⟩ he
  · exact (reserved_renameAll b u.names).trans hu.1
  · exact Int.le_trans hu.2 (le_renameAll b u.names).counter

end Expr

end Lambdict
