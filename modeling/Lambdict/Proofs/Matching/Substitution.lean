import Lambdict.Proofs.Matching.Basic

/-!
# Substitution keeps expressions matching

Substituting in two matching expressions gives matching expressions, provided that nothing is
captured: no name of what is put in may be bound where it is put in (`Substitution.Carries`,
`Expr.Matches.subst`).
-/

namespace Lambdict

namespace Substitution

/-! ## Looking up -/

/-- Names that are taken out of a substitution are not replaced. -/
theorem find?_withoutAll_of_mem {xs : List String} {x : String} (h : x ∈ xs) (σ : Substitution) :
    (σ.withoutAll xs).find? x = none := by
  induction σ with
  | nil => rfl
  | cons r σ ih =>
    obtain ⟨y, e⟩ := r
    simp only [withoutAll, find?, List.filter_cons, decide_eq_true_eq] at ih ⊢
    split
    next hy =>
      have hne : (x == y) = false := by
        rw [beq_eq_false_iff_ne]
        rintro rfl
        exact hy h
      simp only [List.lookup_cons, hne, ih]
    next => exact ih

/-- Names that are not taken out are replaced as before. -/
theorem find?_withoutAll_of_not_mem {xs : List String} {x : String} (h : x ∉ xs)
    (σ : Substitution) : (σ.withoutAll xs).find? x = σ.find? x := by
  induction σ with
  | nil => rfl
  | cons r σ ih =>
    obtain ⟨y, e⟩ := r
    simp only [withoutAll, find?, List.filter_cons, decide_eq_true_eq, List.lookup_cons] at ih ⊢
    split
    next hy => simp only [List.lookup_cons, ih]
    next hy =>
      have hne : (x == y) = false := by
        rw [beq_eq_false_iff_ne]
        rintro rfl
        exact hy h
      simp only [hne, ih]

theorem without_eq (σ : Substitution) (x : String) : σ.without x = σ.withoutAll [x] := by
  simp only [without, withoutAll, List.mem_singleton]

/-- Only parameters are replaced by arguments. -/
theorem find?_ofLists_of_not_mem {xs : List String} {x : String} (h : x ∉ xs) (es : List Expr) :
    (ofLists xs es).find? x = none := by
  rw [find?, List.lookup_eq_none_iff]
  intro r hr
  rw [bne_iff_ne]
  rintro rfl
  exact h (List.of_mem_zip (List.mem_reverse.1 hr)).1

/-- Of two arguments for one name the later one is put in. -/
theorem find?_ofLists_cons (x y : String) (xs : List String) (e : Expr) (es : List Expr) :
    (ofLists (y :: xs) (e :: es)).find? x =
      ((ofLists xs es).find? x).or (if x == y then some e else none) := by
  simp only [ofLists, find?, List.zip_cons_cons, List.reverse_cons, List.lookup_append,
    List.lookup_cons, List.lookup_nil]
  cases x == y <;> rfl

/-- Names that are paired are replaced by expressions that correspond. -/
theorem find?_ofLists_of_mem {R : Expr → Expr → Prop} {ps qs : List String} {es es' : List Expr}
    (hes : List.Forall₂ R es es') (hp : es.length = ps.length) (hq : ps.length = qs.length)
    (hps : ps.Nodup) (hqs : qs.Nodup) {x y : String} (h : (x, y) ∈ ps.zip qs) :
    ∃ e e', (ofLists ps es).find? x = some e ∧ (ofLists qs es').find? y = some e' ∧ R e e' := by
  induction hes generalizing ps qs with
  | nil =>
    obtain rfl := List.length_eq_zero_iff.1 hp.symm
    simp at h
  | @cons e e' es es' he _ ih =>
    match ps, qs, hq with
    | [], _, _ => cases hp
    | p :: ps, q :: qs, hq =>
      obtain ⟨hp', hps⟩ := List.nodup_cons.1 hps
      obtain ⟨hq', hqs⟩ := List.nodup_cons.1 hqs
      simp only [find?_ofLists_cons]
      rcases List.mem_cons.1 h with heq | h
      · obtain ⟨rfl, rfl⟩ := Prod.mk.inj heq
        -- the later names are looked at first, and these two are not among them
        refine ⟨e, e', ?_, ?_, he⟩
        · simp [find?_ofLists_of_not_mem hp']
        · simp [find?_ofLists_of_not_mem hq']
      · obtain ⟨d, d', hd, hd', hdd⟩ := ih (Nat.succ.inj hp) (Nat.succ.inj hq) hps hqs h
        exact ⟨d, d', by simp [hd], by simp [hd'], hdd⟩

/-- What a substitution does after an element of a sequence. -/
def after (σ : Substitution) : Expr → Substitution
  | .define x _ => σ.without x
  | _ => σ

/-! ## Carrying over -/

/-- An expression that can be put in for a name: neither a dictionary literal nor a definition,
since these would change what the form around them is. -/
def Insertable : Expr → Prop
  | .dict _ | .define _ _ => False
  | _ => True

/-- **Two substitutions carry one scope over to another.**  Each two names that are paired in the
first scope are either both replaced, by expressions that match in a scope `Λ`, or both left, and
then paired in the second scope as well.  Where they are put in, nothing is captured: no name that
`Λ` pairs is the parameter of a lambda, and a definition hides both names of a pair or neither. -/
structure Carries (L : Link) (Λ Γ Δ : Scope) (σ σ' : Substitution) : Prop where
  names : ∀ x y, Γ.names x y →
    (∃ e e', σ.find? x = some e ∧ σ'.find? y = some e' ∧ e.Matches L Λ e' ∧ Insertable e) ∨
      (σ.find? x = none ∧ σ'.find? y = none ∧ Δ.names x y)
  put : Λ.Le Δ
  params : ∀ ps qs, Γ.params ps qs → Δ.params ps qs
  added : ∀ ps, Γ.added ps → Δ.added ps
  apart : ∀ ps qs, Γ.params ps qs → ∀ x y, Λ.names x y → x ∉ ps ∧ y ∉ qs
  defined : ∀ z, L.defines z → ∀ x y, Λ.names x y → (x = z ↔ y = z)

variable {L : Link} {Λ Γ Δ : Scope} {σ σ' : Substitution}

/-- Two substitutions without the names that two binders bind carry the scope inside over. -/
theorem Carries.hide (h : Carries L Λ Γ Δ σ σ') {ps qs : List String}
    (hΛ : ∀ x y, Λ.names x y → (x, y) ∈ ps.zip qs ∨ x ∉ ps ∧ y ∉ qs) :
    Carries L Λ (Γ.bind ps qs) (Δ.bind ps qs) (σ.withoutAll ps) (σ'.withoutAll qs) where
  names x y := by
    rintro (hmem | ⟨hx, hy, hxy⟩)
    · obtain ⟨hx, hy⟩ := List.of_mem_zip hmem
      exact .inr ⟨find?_withoutAll_of_mem hx σ, find?_withoutAll_of_mem hy σ', .inl hmem⟩
    · rw [find?_withoutAll_of_not_mem hx, find?_withoutAll_of_not_mem hy]
      exact (h.names x y hxy).imp_right fun ⟨h₁, h₂, hΔ⟩ => ⟨h₁, h₂, .inr ⟨hx, hy, hΔ⟩⟩
  put := by
    refine ⟨fun x y hxy => ?_, h.put.params, h.put.added⟩
    exact (hΛ x y hxy).imp_right fun ⟨hx, hy⟩ => ⟨hx, hy, h.put.names x y hxy⟩
  params := h.params
  added := h.added
  apart := h.apart
  defined := h.defined

/-- Inside two lambdas substitutions carry over what they carry over outside. -/
theorem Carries.bind (h : Carries L Λ Γ Δ σ σ') {ps qs : List String} (hp : Γ.params ps qs) :
    Carries L Λ (Γ.bind ps qs) (Δ.bind ps qs) (σ.withoutAll ps) (σ'.withoutAll qs) :=
  h.hide fun x y hxy => .inr (h.apart ps qs hp x y hxy)

/-- What is put in for a name that is paired can be put in, and otherwise the name can. -/
theorem Carries.insertable (h : Carries L Λ Γ Δ σ σ') {x y : String} (hxy : Γ.names x y) :
    Insertable ((σ.find? x).getD (.var x)) := by
  rcases h.names x y hxy with ⟨e, e', he, -, -, hi⟩ | ⟨he, -, -⟩
  · rw [he]
    exact hi
  · rw [he]
    trivial

/-- After an element of a sequence substitutions carry over what they carry over before. -/
theorem Carries.after (h : Carries L Λ Γ Δ σ σ') {e e' : Expr} (he : e.Matches L Γ e') :
    Carries L Λ (Γ.after e) (Δ.after (e.subst σ)) (σ.after e) (σ'.after e') := by
  cases he with
  | @define Γ z e e' hz he =>
    -- a definition hides its name on both sides, or on neither
    simp only [Substitution.after, without_eq]
    refine h.hide fun x y hxy => ?_
    have := h.defined z hz x y hxy
    by_cases hx : x = z
    · obtain rfl := this.1 hx
      simp [hx]
    · exact .inr ⟨by simpa using hx, by simpa [← this] using hx⟩
  | @var Γ x y hxy =>
    -- what was put in is no definition, so the scope stays as it is
    have hi := h.insertable hxy
    have hΔ : Δ.after ((σ.find? x).getD (.var x)) = Δ := by
      cases hr : (σ.find? x).getD (.var x) with
      | define z e =>
        rw [hr] at hi
        exact hi.elim
      | _ => rfl
    rw [Expr.subst, hΔ]
    exact h
  | _ => exact h

end Substitution

namespace Expr

/-! ## Substitution -/

theorem substSeq_cons (σ : Substitution) (e : Expr) (es : List Expr) :
    substSeq σ (e :: es) = e.subst σ :: substSeq (σ.after e) es := by
  cases e <;> rfl

/-- To substitute in an expanded literal is to substitute in its values. -/
theorem substEach_pairCalls (σ : Substitution) (ks : List String) (vs : List Expr) :
    substEach σ (List.zipWith Desugar.pairCall ks vs) =
      List.zipWith Desugar.pairCall ks (substEach σ vs) := by
  induction ks generalizing vs with
  | nil => rfl
  | cons k ks ih =>
    cases vs with
    | nil => rfl
    | cons v vs =>
      simp only [List.zipWith_cons_cons, substEach, ih, Desugar.pairCall, Desugar.call, subst]

/-- A scanner has no free names, so nothing is put in. -/
theorem subst_scannerOf (σ : Substitution) (a b c : String) :
    (Desugar.scannerOf a b c).subst σ = Desugar.scannerOf a b c := by
  have h {x : String} (hx : x ∈ [a, b, c]) :=
    Substitution.find?_withoutAll_of_mem hx σ
  simp only [Desugar.scannerOf, Desugar.scan, Desugar.call, subst, substSeq, substEach,
    h (List.mem_cons_self ..), h (List.mem_cons_of_mem _ (List.mem_cons_self ..)),
    h (List.mem_cons_of_mem _ (List.mem_cons_of_mem _ (List.mem_cons_self ..))), Option.getD_none]

variable {L : Link} {Λ : Scope}

/-- Only a single argument becomes a single argument. -/
theorem substEach_eq_singleton {σ : Substitution} {es : List Expr} {key : Expr}
    (h : substEach σ es = [key]) : ∃ e, es = [e] := by
  match es, h with
  | [e], _ => exact ⟨e, rfl⟩

/-- Substitution makes no dictionary literal that was not there. -/
theorem Matches.eq_dict_of_subst {Γ Δ : Scope} {σ σ' : Substitution}
    (h : Substitution.Carries L Λ Γ Δ σ σ') {f f' : Expr} (hf : f.Matches L Γ f')
    {ds : List (String × Expr)} (hds : f.subst σ = .dict ds) : ∃ ds', f = .dict ds' := by
  cases hf with
  | var hxy =>
    have hi := h.insertable hxy
    rw [← Expr.subst, hds] at hi
    exact hi.elim
  | dict | construct => exact ⟨_, rfl⟩
  | _ => cases hds

mutual

/-- **Substitution keeps expressions matching.** -/
theorem Matches.subst {Γ Δ : Scope} {σ σ' : Substitution}
    (h : Substitution.Carries L Λ Γ Δ σ σ') {e e' : Expr} :
    e.Matches L Γ e' → (e.subst σ).Matches L Δ (e'.subst σ')
  | .number n => .number n
  | .boolean b => .boolean b
  | .string s => .string s
  | .prim p => .prim p
  | .var hxy => by
    rcases h.names _ _ hxy with ⟨r, r', hr, hr', hm, -⟩ | ⟨hr, hr', hΔ⟩
    · simp only [Expr.subst, hr, hr', Option.getD_some]
      exact hm.mono (.refl L) h.put
    · simp only [Expr.subst, hr, hr', Option.getD_none]
      exact .var hΔ
  | .cond ht hc ha => .cond (ht.subst h) (hc.subst h) (ha.subst h)
  | .lambda hp hb => .lambda (h.params _ _ hp) (hb.subst (h.bind hp))
  | .app hn hf hes => by
    refine .app (fun hs ds key hds hkey => ?_) (hf.subst h) (hes.subst h)
    -- a literal that is applied to a key here was so before the substitution
    obtain ⟨ds', rfl⟩ := hf.eq_dict_of_subst h hds
    obtain ⟨key', rfl⟩ := substEach_eq_singleton hkey
    exact hn hs ds' key' rfl rfl
  | .define hx he => .define hx (he.subst h)
  | .quote hd => .quote hd
  | .dict hn hk hv => by
    refine .dict hn ?_ ?_
    · rw [keys_substEntries, keys_substEntries, hk]
    · rw [values_substEntries, values_substEntries]
      exact hv.subst h
  | .construct hs hv => by
    simp only [Expr.subst, Desugar.call, substEach_pairCalls]
    rw [← keys_substEntries]
    refine .construct hs ?_
    rw [values_substEntries]
    exact hv.subst h
  | .search hs hv hk ha ha' => by
    simp only [Expr.subst, Desugar.searchBy, Desugar.call, substEach, subst_scannerOf,
      substEach_pairCalls]
    rw [← keys_substEntries]
    refine .search hs ?_ (hk.subst h) (h.added _ ha) (h.added _ ha')
    rw [values_substEntries]
    exact hv.subst h

/-- Sequences that match go on to match when matching expressions are put in. -/
theorem MatchesSeq.subst {Γ Δ : Scope} {σ σ' : Substitution}
    (h : Substitution.Carries L Λ Γ Δ σ σ') {es es' : List Expr} :
    MatchesSeq L Γ es es' → MatchesSeq L Δ (substSeq σ es) (substSeq σ' es')
  | .nil => .nil
  | .cons he hes => by
    rw [substSeq_cons, substSeq_cons]
    exact .cons (he.subst h) (hes.subst (h.after he))

theorem MatchesEach.subst {Γ Δ : Scope} {σ σ' : Substitution}
    (h : Substitution.Carries L Λ Γ Δ σ σ') {es es' : List Expr} :
    MatchesEach L Γ es es' → MatchesEach L Δ (substEach σ es) (substEach σ' es')
  | .nil => .nil
  | .cons he hes => .cons (he.subst h) (hes.subst h)

end

end Expr

end Lambdict
