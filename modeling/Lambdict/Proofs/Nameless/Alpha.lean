import Lambdict.Proofs.Alpha
import Lambdict.Proofs.Nameless.Basic
import Lambdict.Proofs.Safety.Valid

/-!
# Equal nameless forms

Valid expressions that have the same nameless form are alpha-equivalent
(`Expr.ValidAll.alphaEqSeq_of_nameless`): the form of an expression tells which parameter each
reference goes to, and leaves nothing open but the names of parameters.
-/

namespace Lambdict

namespace Context

variable {Γ Δ : Context} {ps qs : List String} {x y : String}

/-- References at two places that go to the same parameter, or to the same name. -/
def Refers (Γ Δ : Context) : Pairing := fun x y =>
  Nameless.reference x (Γ.index? x) = Nameless.reference y (Δ.index? y)

/-- Two names refer to one thing if they have one index, or have none and are the same. -/
theorem refers_iff :
    Γ.Refers Δ x y ↔ Γ.index? x = Δ.index? y ∧ (Γ.index? x = none → x = y) := by
  rw [Refers]
  cases Γ.index? x <;> cases Δ.index? y <;> simp [Nameless.reference]

/-- An index below the number of parameters is that of a parameter. -/
theorem getElem?_of_index?_bind {i : Nat} (hi : i < ps.length)
    (h : (Γ.bind ps).index? x = some i) : ps[i]? = some x := by
  obtain ⟨hlt, hget, -⟩ := List.idxOf?_eq_some_iff.1 h
  have hps : (ps.map some ++ Γ)[i]? = some (some x) := by
    rw [← hget]
    exact List.getElem?_eq_getElem hlt
  rw [List.getElem?_append_left (by simpa using hi), List.getElem?_map] at hps
  simpa using hps

/-- Inside two lambdas names that refer to one thing are paired. -/
theorem Refers.bind (hlen : ps.length = qs.length) (h : (Γ.bind ps).Refers (Δ.bind qs) x y) :
    Pairing.bind ps qs (Γ.Refers Δ) x y := by
  obtain ⟨hindex, hfree⟩ := refers_iff.1 h
  by_cases hnear : ∃ i, i < ps.length ∧ (Γ.bind ps).index? x = some i
  · -- both go to the parameter at the same place of the two lambdas
    obtain ⟨i, hi, hx⟩ := hnear
    have hp := getElem?_of_index?_bind hi hx
    have hq := getElem?_of_index?_bind (hlen ▸ hi) (hindex.symm.trans hx)
    exact .inl (List.mem_of_getElem? (List.getElem?_zip_eq_some.2 ⟨hp, hq⟩))
  · have hx : x ∉ ps := fun hm => hnear (index?_bind_of_mem hm Γ)
    have hy : y ∉ qs := by
      intro hm
      obtain ⟨i, hi, heq⟩ := index?_bind_of_mem hm Δ
      exact hnear ⟨i, hlen ▸ hi, hindex.trans heq⟩
    rw [index?_bind_of_not_mem hx] at hindex hfree
    rw [index?_bind_of_not_mem hy, ← hlen] at hindex
    refine .inr ⟨hx, hy, refers_iff.2 ⟨?_, fun hnone => hfree (by rw [hnone, Option.map_none])⟩⟩
    exact Option.map_injective (fun _ _ => Nat.add_right_cancel) hindex

/-- Where a name is hidden on both sides, names that refer to one thing are paired. -/
theorem Refers.hide {z : String} (h : (Γ.hide z).Refers (Δ.hide z) x y) :
    Pairing.bind [z] [z] (Γ.Refers Δ) x y := by
  obtain ⟨hindex, hfree⟩ := refers_iff.1 h
  by_cases hx : x = z
  · subst hx
    have hxy := hfree (index?_hide_self Γ x)
    exact .inl (by simp [hxy])
  · have hy : y ≠ z := by
      rintro rfl
      exact hx (hfree (hindex.trans (index?_hide_self Δ y)))
    rw [index?_hide_of_ne hx] at hindex hfree
    rw [index?_hide_of_ne hy] at hindex
    exact .inr ⟨by simpa using hx, by simpa using hy, refers_iff.2 ⟨hindex, hfree⟩⟩

/-- The scope of alpha-equivalence at two places. -/
def scope (Γ Δ : Context) : Scope := { Link.alpha.base with names := Γ.Refers Δ }

/-- Outside all lambdas names that refer to one thing are the same. -/
theorem scope_nil_le : (scope [] []).Le Link.alpha.base :=
  ⟨fun _ _ h => (refers_iff.1 h).2 rfl, fun _ _ h => h, fun _ h => h⟩

theorem scope_bind_le (hlen : ps.length = qs.length) :
    ((Γ.bind ps).scope (Δ.bind qs)).Le ((Γ.scope Δ).bind ps qs) :=
  ⟨fun _ _ h => h.bind hlen, fun _ _ h => h, fun _ h => h⟩

theorem scope_hide_le (z : String) :
    ((Γ.hide z).scope (Δ.hide z)).Le ((Γ.scope Δ).bind [z] [z]) :=
  ⟨fun _ _ h => h.hide, fun _ _ h => h, fun _ h => h⟩

end Context

/-! ## Nodes -/

namespace Expr

variable {Γ Δ : Context} {e e' : Expr}

/-- What looks like a variable without names is a variable that refers to the same thing. -/
theorem nameless_var_eq {x : String} (h : (var x).nameless Γ = e.nameless Δ) :
    ∃ y, .var y = e ∧ Γ.Refers Δ x y := by
  cases e with
  | var y => exact ⟨y, rfl, h⟩
  | _ =>
    unfold nameless at h
    cases hx : Γ.index? x <;> rw [hx] at h <;> cases h

/-- **What equal nameless forms say** of two expressions, by the outermost node of one. -/
theorem nameless_eq (h : e.nameless Γ = e'.nameless Δ) :
    match e with
    | .var x => ∃ y, .var y = e' ∧ Γ.Refers Δ x y
    | .cond t c a => ∃ t' c' a', .cond t' c' a' = e' ∧ t.nameless Γ = t'.nameless Δ ∧
        c.nameless Γ = c'.nameless Δ ∧ a.nameless Γ = a'.nameless Δ
    | .lambda ps b => ∃ qs b', .lambda qs b' = e' ∧ ps.length = qs.length ∧
        namelessSeq (Γ.bind ps) b = namelessSeq (Δ.bind qs) b'
    | .app f es => ∃ f' es', .app f' es' = e' ∧ f.nameless Γ = f'.nameless Δ ∧
        namelessEach Γ es = namelessEach Δ es'
    | .define x d => ∃ d', .define x d' = e' ∧ d.nameless Γ = d'.nameless Δ
    | .dict es => ∃ es', .dict es' = e' ∧ es.map Prod.fst = es'.map Prod.fst ∧
        namelessEntries Γ es = namelessEntries Δ es'
    | e => e = e' := by
  cases e with
  | var x => exact nameless_var_eq h
  | _ =>
    cases e' with
    | var y =>
      obtain ⟨_, heq, -⟩ := nameless_var_eq h.symm
      cases heq
    | _ => first | (cases h; done) | simpa [nameless] using h

end Expr

/-- After elements that are one without names, names that refer to one thing are paired. -/
theorem Context.scope_after_le {Γ Δ : Context} {e e' : Expr} (h : e.nameless Γ = e'.nameless Δ) :
    ((Γ.after e).scope (Δ.after e')).Le ((Γ.scope Δ).after e) := by
  cases e with
  | define x d =>
    obtain ⟨d', rfl, -⟩ := Expr.nameless_eq h
    exact scope_hide_le x
  | _ =>
    cases e' with
    | define z d' =>
      obtain ⟨_, heq, -⟩ := Expr.nameless_eq h.symm
      cases heq
    | _ => exact .refl _

/-! ## Whole expressions -/

open Lambdict.Expr (nameless_eq MatchesSeq MatchesEach)

open Context (scope_nil_le scope_bind_le scope_after_le)

mutual

/-- **Expressions with the same nameless form** match up to the names of parameters. -/
theorem Expr.Valid.matches_of_nameless : ∀ {e : Expr}, e.Valid → ∀ {Γ Δ : Context} {e' : Expr},
    e.nameless Γ = e'.nameless Δ → e.Matches Link.alpha (Γ.scope Δ) e'
  | .var x, _, _, _, _, heq => by
    obtain ⟨y, rfl, hxy⟩ := nameless_eq heq
    exact .var hxy
  | .cond t c a, h, _, _, _, heq => by
    obtain ⟨t', c', a', rfl, ht, hc, ha⟩ := nameless_eq heq
    exact .cond (h.2.1.matches_of_nameless ht) (h.2.2.1.matches_of_nameless hc)
      (h.2.2.2.matches_of_nameless ha)
  | .lambda ps b, h, _, _, _, heq => by
    obtain ⟨qs, b', rfl, hlen, hb⟩ := nameless_eq heq
    have hbody := Expr.ValidAll.matchesSeq_of_nameless h.2 hb
    exact .lambda hlen (hbody.mono (.refl _) (scope_bind_le hlen))
  | .app f es, h, _, _, _, heq => by
    obtain ⟨f', es', rfl, hf, hes⟩ := nameless_eq heq
    exact .app (fun hs => hs.elim) (h.2.1.matches_of_nameless hf)
      (Expr.ValidAll.matchesEach_of_nameless h.2.2 hes)
  | .define x d, h, _, _, _, heq => by
    obtain ⟨d', rfl, hd⟩ := nameless_eq heq
    exact .define trivial (h.2.matches_of_nameless hd)
  | .dict es, h, _, _, _, heq => by
    obtain ⟨es', rfl, hk, hv⟩ := nameless_eq heq
    exact .dict id hk (Expr.ValidEntries.matchesEach_of_nameless h.2 hv)
  | .quote d, h, _, _, _, heq => by
    obtain rfl : Expr.quote d = _ := nameless_eq heq
    exact .quote h.2.matches_self
  | .number n, _, _, _, _, heq => by
    obtain rfl : Expr.number n = _ := nameless_eq heq
    exact .number n
  | .boolean b, _, _, _, _, heq => by
    obtain rfl : Expr.boolean b = _ := nameless_eq heq
    exact .boolean b
  | .string s, _, _, _, _, heq => by
    obtain rfl : Expr.string s = _ := nameless_eq heq
    exact .string s
  | .prim p, _, _, _, _, heq => by
    obtain rfl : Expr.prim p = _ := nameless_eq heq
    exact .prim p
termination_by structural e => e

/-- Valid sequences that are one without names match. -/
theorem Expr.ValidAll.matchesSeq_of_nameless : ∀ {es : List Expr}, Expr.ValidAll es →
    ∀ {Γ Δ : Context} {es' : List Expr}, Expr.namelessSeq Γ es = Expr.namelessSeq Δ es' →
      MatchesSeq Link.alpha (Γ.scope Δ) es es'
  | [], _, _, _, [], _ => .nil
  | _ :: _, h, _, _, _ :: _, heq => by
    obtain ⟨he, hes⟩ := List.cons.inj heq
    exact .cons (h.1.matches_of_nameless he)
      ((Expr.ValidAll.matchesSeq_of_nameless h.2 hes).mono (.refl _) (scope_after_le he))
termination_by structural es => es

theorem Expr.ValidAll.matchesEach_of_nameless : ∀ {es : List Expr}, Expr.ValidAll es →
    ∀ {Γ Δ : Context} {es' : List Expr}, Expr.namelessEach Γ es = Expr.namelessEach Δ es' →
      MatchesEach Link.alpha (Γ.scope Δ) es es'
  | [], _, _, _, [], _ => .nil
  | _ :: _, h, _, _, _ :: _, heq => by
    obtain ⟨he, hes⟩ := List.cons.inj heq
    exact .cons (h.1.matches_of_nameless he) (Expr.ValidAll.matchesEach_of_nameless h.2 hes)
termination_by structural es => es

theorem Expr.ValidEntries.matchesEach_of_nameless : ∀ {es : List (String × Expr)},
    Expr.ValidEntries es → ∀ {Γ Δ : Context} {es' : List (String × Expr)},
      Expr.namelessEntries Γ es = Expr.namelessEntries Δ es' →
      MatchesEach Link.alpha (Γ.scope Δ) (es.map Prod.snd) (es'.map Prod.snd)
  | [], _, _, _, [], _ => .nil
  | (_, _) :: _, h, _, _, (_, _) :: _, heq => by
    obtain ⟨he, hes⟩ := List.cons.inj heq
    exact .cons (h.1.matches_of_nameless he) (Expr.ValidEntries.matchesEach_of_nameless h.2 hes)
termination_by structural es => es

/-- A valid value matches itself. -/
theorem Value.Valid.matches_self : ∀ {v : Value}, v.Valid → v.Matches Link.alpha v
  | .pair _ _ _, h => .pair trivial h.1.matches_self h.2.matches_self
  | .closure _ ps b, h => by
    have hbody : MatchesSeq Link.alpha ((Context.bind ps []).scope (Context.bind ps [])) b b :=
      Expr.ValidAll.matchesSeq_of_nameless h.2 rfl
    refine .closure trivial rfl ((hbody.mono (.refl _) (scope_bind_le rfl)).mono (.refl _) ?_)
    exact scope_nil_le.bind ps ps
  | .dict _ es, h => .dict trivial rfl (Value.ValidEntries.matches_self h)
  | .number _, _ | .boolean _, _ | .string _, _ | .symbol _, _ | .empty, _ | .prim _, _ =>
    .plain rfl
termination_by structural v => v

theorem Value.ValidEntries.matches_self : ∀ {es : List (String × Value)}, Value.ValidEntries es →
    Value.MatchesAll Link.alpha (es.map Prod.snd) (es.map Prod.snd)
  | [], _ => .nil
  | (_, _) :: _, h => .cons h.1.matches_self (Value.ValidEntries.matches_self h.2)
termination_by structural es => es

end

/-- **Sequences with the same nameless form are alpha-equivalent.** -/
theorem Expr.ValidAll.alphaEqSeq_of_nameless {p p' : List Expr} (hp : Expr.ValidAll p)
    (h : Expr.namelessSeq [] p = Expr.namelessSeq [] p') : Expr.AlphaEqSeq p p' :=
  (hp.matchesSeq_of_nameless h).mono (.refl _) scope_nil_le

end Lambdict
