import Lambdict.Proofs.Matching.Simulation

/-!
# Names outside and inside lambdas

The *free* names of an expression are the names in it that no lambda parameter binds (`Expr.free`):
what it refers to, and what it defines.  A definition of a parameter's name ends the scope of the
parameter for the rest of its sequence, so the name is free from there on.  Quoted data is gone
through as well, for the closures in it.  The *binders* of an expression are the parameters of its
lambdas, quoted data left aside (`Expr.binders`).

What matches itself at a moment of a run has only reserved names free
(`Value.Matches.free_reserved`), and its binders are as its scope says
(`Expr.Matches.binders_params`).
-/

namespace Lambdict

/-- The parameters that are still in scope after an element of a sequence. -/
def Expr.unbind (bound : List String) : Expr → List String
  | .define x _ => bound.filter fun y => y ≠ x
  | _ => bound

mutual

/-- **The free names of an expression**, where some parameters are in scope. -/
def Expr.free (bound : List String) : Expr → List String
  | .var x => if x ∈ bound then [] else [x]
  | .cond t c a => t.free bound ++ c.free bound ++ a.free bound
  | .lambda ps b => Expr.freeSeq (ps ++ bound) b
  | .app f es => f.free bound ++ Expr.freeEach bound es
  | .define x e => x :: e.free bound
  | .quote d => d.free
  | .dict es => Expr.freeEntries bound es
  | .foreign v => v.free
  | .number _ | .boolean _ | .string _ | .prim _ => []

/-- The free names of a sequence. -/
def Expr.freeSeq (bound : List String) : List Expr → List String
  | [] => []
  | e :: es => e.free bound ++ Expr.freeSeq (e.unbind bound) es

/-- The free names of several expressions. -/
def Expr.freeEach (bound : List String) : List Expr → List String
  | [] => []
  | e :: es => e.free bound ++ Expr.freeEach bound es

/-- The free names of the values of a dictionary literal. -/
def Expr.freeEntries (bound : List String) : List (String × Expr) → List String
  | [] => []
  | (_, e) :: es => e.free bound ++ Expr.freeEntries bound es

/-- **The free names of a value**: those of the closures in it. -/
def Value.free : Value → List String
  | .pair _ h t => h.free ++ t.free
  | .closure _ ps b => Expr.freeSeq ps b
  | .dict _ es => Value.freeEntries es
  | .code _ e => e.free []
  | .sequence _ vs => Value.freeAll vs
  | .nothing | .number _ | .boolean _ | .string _ | .symbol _ | .empty | .prim _ => []

/-- The free names of several values. -/
def Value.freeAll : List Value → List String
  | [] => []
  | v :: vs => v.free ++ Value.freeAll vs

/-- The free names of the values of a dictionary. -/
def Value.freeEntries : List (String × Value) → List String
  | [] => []
  | (_, v) :: es => v.free ++ Value.freeEntries es

end

namespace Expr

mutual

/-- **The binders of an expression**: the parameters of all lambdas in it. -/
def binders : Expr → List String
  | .lambda ps b => ps ++ bindersAll b
  | .cond t c a => t.binders ++ c.binders ++ a.binders
  | .app f es => f.binders ++ bindersAll es
  | .define _ e => e.binders
  | .dict es => bindersEntries es
  | .number _ | .boolean _ | .string _ | .var _ | .prim _ | .quote _ | .foreign _ => []

/-- The binders of several expressions. -/
def bindersAll : List Expr → List String
  | [] => []
  | e :: es => e.binders ++ bindersAll es

/-- The binders of the values of a dictionary literal. -/
def bindersEntries : List (String × Expr) → List String
  | [] => []
  | (_, e) :: es => e.binders ++ bindersEntries es

end

/-- The free names of a literal's entries are those of their values. -/
theorem freeEntries_eq (bound : List String) (es : List (String × Expr)) :
    freeEntries bound es = freeEach bound (es.map Prod.snd) := by
  induction es with
  | nil => rfl
  | cons p es ih => simp only [freeEntries, freeEach, List.map_cons, ih]

theorem bindersEntries_eq (es : List (String × Expr)) :
    bindersEntries es = bindersAll (es.map Prod.snd) := by
  induction es with
  | nil => rfl
  | cons p es ih => simp only [bindersEntries, bindersAll, List.map_cons, ih]

end Expr

theorem Value.freeEntries_eq (es : List (String × Value)) :
    Value.freeEntries es = Value.freeAll (es.map Prod.snd) := by
  induction es with
  | nil => rfl
  | cons p es ih => simp only [Value.freeEntries, Value.freeAll, List.map_cons, ih]

/-! ## Free names are reserved -/

/-- All names that a scope pairs are reserved, but for the parameters in scope. -/
def Scope.Bounded (W : World) (Γ : Scope) (bound : List String) : Prop :=
  ∀ x y, Γ.names x y → x ∈ bound ∨ x ∈ W.left.reserved

variable {W : World}

/-- Inside a lambda its parameters are in scope as well. -/
theorem Scope.Bounded.bind {Γ : Scope} {bound : List String} (h : Scope.Bounded W Γ bound)
    (ps qs : List String) : Scope.Bounded W (Γ.bind ps qs) (ps ++ bound) := by
  rintro x y (hmem | ⟨-, -, hxy⟩)
  · exact .inl (List.mem_append_left _ (List.of_mem_zip hmem).1)
  · exact (h x y hxy).imp_left (List.mem_append_right _)

/-- A name that is defined is reserved, and no longer a parameter in scope. -/
theorem Scope.Bounded.after {Γ : Scope} {bound : List String} (h : Scope.Bounded W Γ bound)
    {e e' : Expr} (he : e.Matches (W.link False) Γ e') :
    Scope.Bounded W (Γ.after e) (e.unbind bound) := by
  cases he with
  | @define _ z e e' hz he =>
    rintro x y (hmem | ⟨hx, -, hxy⟩)
    · -- a name is reserved that may be defined
      obtain ⟨rfl, rfl⟩ : x = z ∧ y = z := by simpa using hmem
      exact .inr hz.1
    · refine (h x y hxy).imp_left fun hb => List.mem_filter.2 ⟨hb, ?_⟩
      simpa using hx
  | _ => exact h

/-- Outside all lambdas only reserved names are paired. -/
theorem World.bounded_base (W : World) (bound : List String) :
    Scope.Bounded W (W.link False).base bound :=
  fun _ _ h => .inr h.2.1

mutual

/-- **What matches itself has only reserved names free**, other than those that are bound around
it. -/
theorem Expr.Matches.free_reserved {Γ : Scope} {bound : List String}
    (h : Scope.Bounded W Γ bound) {e e' : Expr} :
    e.Matches (W.link False) Γ e' → ∀ x ∈ e.free bound, x ∈ W.left.reserved
  | .number _, x, hx | .boolean _, x, hx | .string _, x, hx | .prim _, x, hx => nomatch hx
  | @Expr.Matches.var _ _ y z hyz, x, hx => by
    simp only [Expr.free] at hx
    split at hx
    · exact nomatch hx
    · next hb =>
      obtain rfl := List.mem_singleton.1 hx
      -- what is not bound here is paired outside, and so reserved
      exact (h x z hyz).resolve_left hb
  | .cond ht hc ha, x, hx => by
    simp only [Expr.free, List.mem_append] at hx
    rcases hx with (hx | hx) | hx
    · exact ht.free_reserved h x hx
    · exact hc.free_reserved h x hx
    · exact ha.free_reserved h x hx
  | .lambda _ hb, x, hx => hb.free_reserved (h.bind _ _) x hx
  | .app _ hf hes, x, hx => by
    rcases List.mem_append.1 hx with hx | hx
    · exact hf.free_reserved h x hx
    · exact hes.free_reserved h x hx
  | .define hz he, x, hx => by
    rcases List.mem_cons.1 hx with rfl | hx
    · exact hz.1
    · exact he.free_reserved h x hx
  | .quote hd, x, hx => hd.free_reserved x hx
  | .dict _ _ hv, x, hx => by
    simp only [Expr.free, Expr.freeEntries_eq] at hx
    exact hv.free_reserved h x hx

theorem Expr.MatchesSeq.free_reserved {Γ : Scope} {bound : List String}
    (h : Scope.Bounded W Γ bound) {es es' : List Expr} :
    Expr.MatchesSeq (W.link False) Γ es es' → ∀ x ∈ Expr.freeSeq bound es, x ∈ W.left.reserved
  | .nil, x, hx => nomatch hx
  | .cons he hes, x, hx => by
    rcases List.mem_append.1 hx with hx | hx
    · exact he.free_reserved h x hx
    · exact hes.free_reserved (h.after he) x hx

theorem Expr.MatchesEach.free_reserved {Γ : Scope} {bound : List String}
    (h : Scope.Bounded W Γ bound) {es es' : List Expr} :
    Expr.MatchesEach (W.link False) Γ es es' → ∀ x ∈ Expr.freeEach bound es, x ∈ W.left.reserved
  | .nil, x, hx => nomatch hx
  | .cons he hes, x, hx => by
    rcases List.mem_append.1 hx with hx | hx
    · exact he.free_reserved h x hx
    · exact hes.free_reserved h x hx

/-- **A value that matches has only reserved names free.** -/
theorem Value.Matches.free_reserved {v v' : Value} :
    v.Matches (W.link False) v' → ∀ x ∈ v.free, x ∈ W.left.reserved
  | .plain hv, x, hx => by
    cases v with
    | pair | closure | dict | code | sequence => cases hv
    | _ => exact nomatch hx
  | .pair _ hh ht, x, hx => by
    rcases List.mem_append.1 hx with hx | hx
    · exact hh.free_reserved x hx
    · exact ht.free_reserved x hx
  | @Value.Matches.closure _ _ _ ps qs _ _ _ _ hb, x, hx => by
    have hbound := (W.bounded_base []).bind ps qs
    rw [List.append_nil] at hbound
    exact hb.free_reserved hbound x hx
  | .dict _ _ hv, x, hx => by
    simp only [Value.free, Value.freeEntries_eq] at hx
    exact hv.free_reserved x hx

theorem Value.MatchesAll.free_reserved {vs vs' : List Value} :
    Value.MatchesAll (W.link False) vs vs' → ∀ x ∈ Value.freeAll vs, x ∈ W.left.reserved
  | .nil, x, hx => nomatch hx
  | .cons hv hvs, x, hx => by
    rcases List.mem_append.1 hx with hx | hx
    · exact hv.free_reserved x hx
    · exact hvs.free_reserved x hx

end

/-! ## Binders are as the scope says -/

namespace Expr

mutual

/-- The parameters of a lambda inside are parameters that the scope allows. -/
theorem Matches.binders_params {Γ : Scope} {e e' : Expr} :
    e.Matches (W.link False) Γ e' → ∀ p ∈ e.binders, ∃ ps qs, Γ.params ps qs ∧ p ∈ ps
  | .number _, p, hp | .boolean _, p, hp | .string _, p, hp | .prim _, p, hp | .var _, p, hp
  | .quote _, p, hp => nomatch hp
  | .cond ht hc ha, p, hp => by
    simp only [binders, List.mem_append] at hp
    rcases hp with (hp | hp) | hp
    · exact ht.binders_params p hp
    · exact hc.binders_params p hp
    · exact ha.binders_params p hp
  | .lambda hps hb, p, hp => by
    rcases List.mem_append.1 hp with hp | hp
    · exact ⟨_, _, hps, hp⟩
    · exact hb.binders_params p hp
  | .app _ hf hes, p, hp => by
    rcases List.mem_append.1 hp with hp | hp
    · exact hf.binders_params p hp
    · exact hes.binders_params p hp
  | .define _ he, p, hp => he.binders_params p hp
  | .dict _ _ hv, p, hp => by
    simp only [binders, bindersEntries_eq] at hp
    exact hv.binders_params p hp

theorem MatchesSeq.binders_params {Γ : Scope} {es es' : List Expr} :
    MatchesSeq (W.link False) Γ es es' → ∀ p ∈ bindersAll es, ∃ ps qs, Γ.params ps qs ∧ p ∈ ps
  | .nil, p, hp => nomatch hp
  | .cons he hes, p, hp => by
    rcases List.mem_append.1 hp with hp | hp
    · exact he.binders_params p hp
    · exact hes.binders_params p hp

theorem MatchesEach.binders_params {Γ : Scope} {es es' : List Expr} :
    MatchesEach (W.link False) Γ es es' → ∀ p ∈ bindersAll es, ∃ ps qs, Γ.params ps qs ∧ p ∈ ps
  | .nil, p, hp => nomatch hp
  | .cons he hes, p, hp => by
    rcases List.mem_append.1 hp with hp | hp
    · exact he.binders_params p hp
    · exact hes.binders_params p hp

end

end Expr

end Lambdict
