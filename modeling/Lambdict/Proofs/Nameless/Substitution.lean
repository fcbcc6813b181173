import Lambdict.Proofs.Matching.Substitution
import Lambdict.Proofs.Nameless.Basic

/-!
# Substitution without names

Substitution replaces references by name and does not look out for capture.  In the nameless form it
is an instantiation (`Expr.nameless_subst`), provided that it follows one at every name that is
referred to (`Substitution.Follows`).  A name is left alone, or it is replaced by a new name for the
same parameter, or an expression is put in for it; and then neither the new name nor a name in that
expression may be the name of a parameter further inside.
-/

namespace Lambdict

namespace Expr

/-- The names at the outermost node of an expression, told apart: what a parameter is called
satisfies one predicate, what is referred to or defined another. -/
def NodeParts (R P : String → Prop) : Expr → Prop
  | .var x => R x
  | .lambda ps _ => ∀ p ∈ ps, P p
  | .define x _ => R x
  | _ => True

/-- Parts with names in given sets have them in larger ones. -/
theorem NodeParts.imp {R R' P P' : String → Prop} (hR : ∀ x, R x → R' x) (hP : ∀ x, P x → P' x)
    (e : Expr) (he : NodeParts R P e) : NodeParts R' P' e := by
  cases e with
  | lambda ps b => exact fun p hp => hP p (he p hp)
  | var x | define x e => exact hR x he
  | _ => trivial

end Expr

/-! ## What a substitution does to a reference -/

namespace Substitution

/-- **What becomes of a reference** to a name.  `Γ` is the context before the substitution and `Δ`
the one after it, `args` is put in for parameters, and `k` others are passed before these.  `P`
holds of the names of parameters further inside, and `R` of the names that are referred to there. -/
inductive Handles (R P : String → Prop) (args : List Nameless) (k : Nat) (Γ Δ : Context)
    (σ : Substitution) (x : String) : Prop
  /-- It is left alone, and refers to what it referred to before. -/
  | stays (hσ : σ.find? x = none) (hindex : Δ.index? x = Γ.index? x)
      (hk : ∀ i, Γ.index? x = some i → i < k)
  /-- It gets a new name of the parameter that it refers to. -/
  | renamed {y : String} {i : Nat} (hσ : σ.find? x = some (.var y)) (hx : Γ.index? x = some i)
      (hy : Δ.index? y = some i) (hk : i < k) (hR : ¬ R y) (hP : ¬ P y)
  /-- An expression is put in for it. -/
  | put {e : Expr} {j : Nat} (hσ : σ.find? x = some e) (hx : Γ.index? x = some (k + j))
      (he : args[j]? = some (e.nameless [])) (hd : e.isDefinition = false)
      (hnames : e.NamesWithin fun z => some z ∉ Δ ∧ ¬ P z)

/-- **A substitution follows an instantiation**, at all names that are referred to. -/
def Follows (R P : String → Prop) (args : List Nameless) (k : Nat) (Γ Δ : Context)
    (σ : Substitution) : Prop :=
  ∀ x, R x → Handles R P args k Γ Δ σ x

namespace Follows

variable {R P : String → Prop} {args : List Nameless} {k : Nat} {Γ Δ : Context} {σ : Substitution}

/-- Inside a lambda the substitution without its parameters follows the instantiation. -/
theorem bind (h : Follows R P args k Γ Δ σ) {qs : List String} (hqs : ∀ q ∈ qs, P q) :
    Follows R P args (k + qs.length) (Γ.bind qs) (Δ.bind qs) (σ.withoutAll qs) := by
  intro x hx
  by_cases hmem : x ∈ qs
  · -- the lambda binds the name itself
    refine .stays (find?_withoutAll_of_mem hmem σ) ?_ fun i hi => ?_
    · obtain ⟨i, hi⟩ := Option.isSome_iff_exists.1 (List.isSome_idxOf?.2 hmem)
      rw [Context.index?_bind, Context.index?_bind, hi, Option.some_or, Option.some_or]
    · obtain ⟨j, hj, heq⟩ := Context.index?_bind_of_mem hmem Γ
      obtain rfl := Option.some.inj (hi.symm.trans heq)
      omega
  · have hσ := find?_withoutAll_of_not_mem hmem σ
    have hΓ := Context.index?_bind_of_not_mem hmem Γ
    cases h x hx with
    | stays hnone hindex hk =>
      refine .stays (hσ.trans hnone) ?_ fun i hi => ?_
      · rw [hΓ, Context.index?_bind_of_not_mem hmem, hindex]
      · rw [hΓ] at hi
        obtain ⟨j, hj, rfl⟩ := Option.map_eq_some_iff.1 hi
        have := hk j hj
        omega
    | @renamed y i hsome hx hy hk hR hP =>
      have hmem' : y ∉ qs := fun hm => hP (hqs y hm)
      refine .renamed (hσ.trans hsome) (i := i + qs.length) ?_ ?_ (by omega) hR hP
      · rw [hΓ, hx, Option.map_some]
      · rw [Context.index?_bind_of_not_mem hmem', hy, Option.map_some]
    | @put e j hsome hx he hd hnames =>
      refine .put (hσ.trans hsome) (j := j) ?_ he hd (hnames.imp fun z ⟨hΔ, hP⟩ => ⟨?_, hP⟩)
      · rw [hΓ, hx, Option.map_some]
        congr 1
        omega
      · intro hm
        rcases List.mem_append.1 hm with hm | hm
        · obtain ⟨q, hq, heq⟩ := List.mem_map.1 hm
          exact hP (Option.some.inj heq ▸ hqs q hq)
        · exact hΔ hm

/-- Where a name is hidden the substitution without it follows the instantiation. -/
theorem hide (h : Follows R P args k Γ Δ σ) {z : String} (hz : R z) :
    Follows R P args k (Γ.hide z) (Δ.hide z) (σ.without z) := by
  intro x hx
  rw [without_eq]
  by_cases hxz : x = z
  · subst hxz
    have hnone := Context.index?_hide_self Γ x
    refine .stays (find?_withoutAll_of_mem (List.mem_singleton_self x) σ) ?_ fun i hi => ?_
    · rw [hnone, Context.index?_hide_self]
    · rw [hnone] at hi
      cases hi
  · have hσ := find?_withoutAll_of_not_mem (x := x) (fun hm => hxz (List.mem_singleton.1 hm)) σ
    have hΓ := Context.index?_hide_of_ne hxz Γ
    cases h x hx with
    | stays hnone hindex hk =>
      refine .stays (hσ.trans hnone) ?_ (hΓ ▸ hk)
      rw [hΓ, Context.index?_hide_of_ne hxz, hindex]
    | @renamed y i hsome hx hy hk hR hP =>
      have hyz : y ≠ z := fun heq => hR (heq ▸ hz)
      exact .renamed (hσ.trans hsome) (hΓ.trans hx) ((Context.index?_hide_of_ne hyz Δ).trans hy) hk
        hR hP
    | put hsome hx he hd hnames =>
      exact .put (hσ.trans hsome) (hΓ.trans hx) he hd
        (hnames.imp fun w ⟨hΔ, hP⟩ => ⟨fun hm => hΔ (Context.mem_hide.1 hm).1, hP⟩)

/-- After an element of a sequence the substitution goes on to follow the instantiation. -/
theorem after (h : Follows R P args k Γ Δ σ) {e : Expr} (he : e.Every (Expr.NodeParts R P)) :
    Follows R P args k (Γ.after e) (Δ.after (e.subst σ)) (σ.after e) := by
  cases e with
  | define z d => exact h.hide he.1
  | var x =>
    -- what is put in is no definition, so nothing is hidden
    have hafter : Δ.after ((Expr.var x).subst σ) = Δ := by
      rw [Expr.subst]
      cases h x he with
      | stays hnone => rw [hnone]; rfl
      | renamed hsome => rw [hsome]; rfl
      | @put e _ hsome _ _ hd =>
        rw [hsome, Option.getD_some]
        cases e <;> first | rfl | cases hd
    rw [hafter]
    exact h
  | _ => exact h

end Follows

end Substitution

/-! ## Substitution as instantiation -/

namespace Expr

open Substitution (Follows)

variable {R P : String → Prop} {args : List Nameless}

/-- What the substitution makes of a variable is what the instantiation makes of its index. -/
theorem nameless_subst_var {k : Nat} {Γ Δ : Context} {σ : Substitution} {x : String}
    (h : Substitution.Handles R P args k Γ Δ σ x) :
    ((var x).subst σ).nameless Δ = ((var x).nameless Γ).instantiate args k := by
  rw [subst]
  cases h with
  | stays hnone hindex hk =>
    rw [hnone, Option.getD_none, nameless, nameless, hindex]
    cases hi : Γ.index? x with
    | none => rfl
    | some i => exact (if_pos (hk i hi)).symm
  | renamed hsome hx hy hk =>
    rw [hsome, Option.getD_some, nameless, nameless, hx, hy]
    exact (if_pos hk).symm
  | @put e j hsome hx he _ hnames =>
    have hclosed : e.nameless Δ = e.nameless [] :=
      nameless_append [] Δ (hnames.imp fun _ hz => hz.1)
    have hlt : ¬ k + j < k := by omega
    have hj : k + j - k = j := by omega
    rw [hsome, Option.getD_some, hclosed, nameless, hx, Nameless.reference, Nameless.instantiate,
      if_neg hlt, hj, he, Option.getD_some]

mutual

/-- **Substitution is instantiation**, in the nameless form. -/
theorem nameless_subst {k : Nat} {Γ Δ : Context} {σ : Substitution}
    (h : Follows R P args k Γ Δ σ) : ∀ {e : Expr}, e.Every (NodeParts R P) →
      (e.subst σ).nameless Δ = (e.nameless Γ).instantiate args k
  | .var x, he => nameless_subst_var (h x he)
  | .cond t c a, he => by
    rw [subst, nameless, nameless_subst h he.2.1, nameless_subst h he.2.2.1,
      nameless_subst h he.2.2.2, nameless, Nameless.instantiate]
  | .lambda ps b, he => by
    rw [subst, nameless, namelessSeq_subst (h.bind he.1) he.2, nameless, Nameless.instantiate]
  | .app f es, he => by
    rw [subst, nameless, nameless_subst h he.2.1, namelessEach_subst h he.2.2, nameless,
      Nameless.instantiate]
  | .define x e, he => by
    rw [subst, nameless, nameless_subst h he.2, nameless, Nameless.instantiate]
  | .dict es, he => by
    rw [subst, nameless, namelessEntries_subst h he.2, keys_substEntries, nameless,
      Nameless.instantiate]
  | .number _, _ | .boolean _, _ | .string _, _ | .prim _, _ | .quote _, _ | .foreign _, _ => rfl
termination_by structural e => e

/-- To substitute in a sequence is to instantiate what it is without names. -/
theorem namelessSeq_subst {k : Nat} {Γ Δ : Context} {σ : Substitution}
    (h : Follows R P args k Γ Δ σ) : ∀ {es : List Expr}, EveryAll (NodeParts R P) es →
      namelessSeq Δ (substSeq σ es) = Nameless.instantiateAll args k (namelessSeq Γ es)
  | [], _ => rfl
  | e :: es, he => by
    rw [substSeq_cons, namelessSeq, nameless_subst h he.1, namelessSeq_subst (h.after he.1) he.2,
      namelessSeq, Nameless.instantiateAll]
termination_by structural es => es

theorem namelessEach_subst {k : Nat} {Γ Δ : Context} {σ : Substitution}
    (h : Follows R P args k Γ Δ σ) : ∀ {es : List Expr}, EveryAll (NodeParts R P) es →
      namelessEach Δ (substEach σ es) = Nameless.instantiateAll args k (namelessEach Γ es)
  | [], _ => rfl
  | e :: es, he => by
    rw [substEach, namelessEach, nameless_subst h he.1, namelessEach_subst h he.2, namelessEach,
      Nameless.instantiateAll]
termination_by structural es => es

theorem namelessEntries_subst {k : Nat} {Γ Δ : Context} {σ : Substitution}
    (h : Follows R P args k Γ Δ σ) : ∀ {es : List (String × Expr)}, EveryEntry (NodeParts R P) es →
      namelessEntries Δ (substEntries σ es) = Nameless.instantiateAll args k (namelessEntries Γ es)
  | [], _ => rfl
  | (_, e) :: es, he => by
    rw [substEntries, namelessEntries, nameless_subst h he.1, namelessEntries_subst h he.2,
      namelessEntries, Nameless.instantiateAll]
termination_by structural es => es

end

end Expr

end Lambdict
