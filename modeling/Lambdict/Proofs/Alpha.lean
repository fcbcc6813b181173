import Lambdict.Proofs.Matching.Start
import Lambdict.Proofs.Simulation.Eval

/-!
# Alpha-equivalence

Programs that differ only in the names of lambda parameters do the same (`runProgram_alphaEq`).

Only lambdas rename: a definition keeps its name, and so does whatever no lambda binds.  Both runs
draw fresh names from supplies of their own, and these supplies reserve different names, since the
programs have different parameters; so the runs have different names for what they bind at every
moment.  What relates them is that they match in the sense of `World.link`.  Alpha-equivalent
programs match so from the start (`Expr.MatchesSeq.place`), because the supplies reserve all names
of their programs, and matching values are alpha-equivalent.
-/

namespace Lambdict

/-- The link of alpha-equivalence.  Names go with themselves outside all lambdas, and two lambdas
need only have as many parameters.  What an object is does not count. -/
def Link.alpha : Link where
  expands := False
  same _ _ := True
  defines _ := True
  base := {
    names := Eq
    params := fun ps qs => ps.length = qs.length
    added := fun _ => True }

/-- **Alpha-equivalence** of programs: they differ only in the names of lambda parameters,
consistently and without capture. -/
def Expr.AlphaEqSeq (p p' : List Expr) : Prop := Expr.MatchesSeq Link.alpha Link.alpha.base p p'

/-- **Alpha-equivalence** of values: closures are compared up to the names of parameters, also
inside pairs and dictionaries. -/
def Value.AlphaEq (v v' : Value) : Prop := v.Matches Link.alpha v'

theorem World.link_le_alpha (W : World) : (W.link False).Le Link.alpha where
  expands := .rfl
  same _ _ _ := trivial
  defines _ _ := trivial
  base := ⟨fun _ _ h => h.1, fun _ _ h => h.1, fun _ _ => trivial⟩

/-! ## The start of two runs -/

variable {N N' : NameSet}

/-- A scope of alpha-equivalence and the scope of two runs at the same place: where both names of a
pair are reserved, it is a pair of the second as well. -/
structure Scope.Starts (N N' : NameSet) (Γ Δ : Scope) : Prop where
  names : ∀ x y, x ∈ N → y ∈ N' → Γ.names x y → Δ.names x y
  params : ∀ ps qs, Γ.params ps qs → (NameSupply.start N).Sound ps →
    (NameSupply.start N').Sound qs → Δ.params ps qs

theorem Scope.Starts.bind {Γ Δ : Scope} (h : Scope.Starts N N' Γ Δ) (ps qs : List String) :
    Scope.Starts N N' (Γ.bind ps qs) (Δ.bind ps qs) :=
  ⟨fun x y hx hy => Or.imp_right fun ⟨hp, hq, hxy⟩ => ⟨hp, hq, h.names x y hx hy hxy⟩, h.params⟩

theorem Scope.Starts.after {Γ Δ : Scope} (h : Scope.Starts N N' Γ Δ) (e : Expr) (n : Nat) :
    Scope.Starts N N' (Γ.after e) (Δ.after (e.place n).1) := by
  cases e with
  | define x e => exact h.bind [x] [x]
  | _ => exact h

theorem Value.Matches.place : ∀ {d d' : Value}, d.Matches Link.alpha d' → d.Readable →
    d'.Readable → ∀ n, (d.place n).1.Matches ((World.start N N').link False) (d'.place n).1 ∧
      (d.place n).2 = (d'.place n).2
  | .pair _ h t, _, hm, hd, hd', n => by
    cases hm with
    | plain hp => cases hp
    | @pair _ _ _ h' _ t' _ hh ht =>
      obtain ⟨hh₁, hn⟩ := Value.Matches.place hh hd.1 hd'.1 (n + 1)
      obtain ⟨ht₁, hn₁⟩ := Value.Matches.place ht hd.2 hd'.2 (h.place (n + 1)).2
      simp only [Value.place, ← hn, ← hn₁, and_true]
      exact .pair ⟨n, rfl, rfl⟩ hh₁ ht₁
  | .number _, _, hm, _, _, _ | .boolean _, _, hm, _, _, _ | .string _, _, hm, _, _, _
  | .symbol _, _, hm, _, _, _ | .empty, _, hm, _, _, _ => by
    cases hm
    exact ⟨.plain rfl, rfl⟩

namespace Expr

mutual

/-- Alpha-equivalent expressions match when their runs begin, and their objects get the same
places. -/
theorem Matches.place {Γ Δ : Scope} (h : Scope.Starts N N' Γ Δ) {e e' : Expr} :
    e.Matches Link.alpha Γ e' → e.Every (NodeReady N) → e'.Every (NodeReady N') →
    ∀ n, (e.place n).1.Matches ((World.start N N').link False) Δ (e'.place n).1 ∧
      (e.place n).2 = (e'.place n).2
  | .number m, _, _, _ => ⟨.number m, rfl⟩
  | .boolean b, _, _, _ => ⟨.boolean b, rfl⟩
  | .string s, _, _, _ => ⟨.string s, rfl⟩
  | .prim p, _, _, _ => ⟨.prim p, rfl⟩
  | .var hxy, he, he', _ => ⟨.var (h.names _ _ he.2 he'.2 hxy), rfl⟩
  | .quote hd, he, he', n => by
    obtain ⟨hd₁, hn⟩ := hd.place he.1.2 he'.1.2 n
    exact ⟨.quote hd₁, hn⟩
  | @Matches.cond _ _ t t' c c' a a' ht hc ha, he, he', n => by
    obtain ⟨ht₁, hn⟩ := ht.place h he.2.1 he'.2.1 n
    obtain ⟨hc₁, hn₁⟩ := hc.place h he.2.2.1 he'.2.2.1 (t.place n).2
    obtain ⟨ha₁, hn₂⟩ := ha.place h he.2.2.2 he'.2.2.2 (c.place (t.place n).2).2
    simp only [Expr.place, ← hn, ← hn₁, ← hn₂, and_true]
    exact .cond ht₁ hc₁ ha₁
  | @Matches.lambda _ _ ps qs b b' hp hb, he, he', n => by
    obtain ⟨hb₁, hn⟩ := hb.place (h.bind ps qs) he.2 he'.2 n
    exact ⟨.lambda (h.params ps qs hp (he.1.sound (.start N)) (he'.1.sound (.start N'))) hb₁, hn⟩
  | @Matches.app _ _ f f' es es' _ hf hes, he, he', n => by
    obtain ⟨hf₁, hn⟩ := hf.place h he.2.1 he'.2.1 n
    obtain ⟨hes₁, hn₁⟩ := hes.place h he.2.2 he'.2.2 (f.place n).2
    simp only [Expr.place, ← hn, ← hn₁, and_true]
    exact .app (fun hs => hs.elim) hf₁ hes₁
  | .define _ hv, he, he', n => by
    obtain ⟨hv₁, hn⟩ := hv.place h he.2 he'.2 n
    exact ⟨.define ⟨he.1.2, he'.1.2⟩ hv₁, hn⟩
  | @Matches.dict _ _ es es' hs hk hv, he, he', n => by
    obtain ⟨hv₁, hn⟩ := hv.place h (everyEntry_iff.1 he.2) (everyEntry_iff.1 he'.2) n
    obtain ⟨hkeys, hvalues, hnext⟩ := placeEntries_eq n es
    obtain ⟨hkeys', hvalues', hnext'⟩ := placeEntries_eq n es'
    refine ⟨.dict hs ?_ ?_, ?_⟩
    · rw [hkeys, hkeys', hk]
    · rw [hvalues, hvalues']
      exact hv₁
    · exact hnext.trans (hn.trans hnext'.symm)

theorem MatchesSeq.place {Γ Δ : Scope} (h : Scope.Starts N N' Γ Δ) {es es' : List Expr} :
    MatchesSeq Link.alpha Γ es es' → EveryAll (NodeReady N) es → EveryAll (NodeReady N') es' →
    ∀ n, MatchesSeq ((World.start N N').link False) Δ (placeAll n es).1 (placeAll n es').1 ∧
      (placeAll n es).2 = (placeAll n es').2
  | .nil, _, _, _ => ⟨.nil, rfl⟩
  | @MatchesSeq.cons _ _ e e' es es' he hes, hr, hr', n => by
    obtain ⟨he₁, hn⟩ := he.place h hr.1 hr'.1 n
    obtain ⟨hes₁, hn₁⟩ := hes.place (h.after e n) hr.2 hr'.2 (e.place n).2
    simp only [placeAll, ← hn, ← hn₁, and_true]
    exact .cons he₁ hes₁

theorem MatchesEach.place {Γ Δ : Scope} (h : Scope.Starts N N' Γ Δ) {es es' : List Expr} :
    MatchesEach Link.alpha Γ es es' → EveryAll (NodeReady N) es → EveryAll (NodeReady N') es' →
    ∀ n, MatchesEach ((World.start N N').link False) Δ (placeAll n es).1 (placeAll n es').1 ∧
      (placeAll n es).2 = (placeAll n es').2
  | .nil, _, _, _ => ⟨.nil, rfl⟩
  | @MatchesEach.cons _ _ e e' es es' he hes, hr, hr', n => by
    obtain ⟨he₁, hn⟩ := he.place h hr.1 hr'.1 n
    obtain ⟨hes₁, hn₁⟩ := hes.place h hr.2 hr'.2 (e.place n).2
    simp only [placeAll, ← hn, ← hn₁, and_true]
    exact .cons he₁ hes₁

end

end Expr

/-! ## Runs -/

theorem Scope.starts_base :
    Scope.Starts N N' Link.alpha.base ((World.start N N').link False).base where
  names := by
    rintro x _ hx hx' rfl
    exact ⟨rfl, hx, hx'⟩
  params _ _ hl hp hq := ⟨hl, hp, hq, False.elim⟩

/-- **Evaluation respects alpha-equivalence.**  Of two alpha-equivalent programs, well formed and
with readable quoted data, both end within a depth or neither does; and then both give
alpha-equivalent values, or fail with conditions of the same kind that name the same unbound
variable or the same missing key, or end in the same abort. -/
theorem runProgram_alphaEq {p p' : List Expr} (hp : ∀ e ∈ p, e.WellFormed ∧ e.Readable)
    (hp' : ∀ e ∈ p', e.WellFormed ∧ e.Readable) (h : Expr.AlphaEqSeq p p') (depth : Nat) :
    Option.Rel (fun r r' => Agree Value.AlphaEq r.1 r'.1) (runProgram depth p)
      (runProgram depth p') := by
  have hsound := Expr.everyAll_sound hp
  have hsound' := Expr.everyAll_sound hp'
  -- each run reserves the names of its own program
  obtain ⟨N, hN, hready⟩ := exists_ready hsound
  obtain ⟨N', hN', hready'⟩ := exists_ready hsound'
  rw [runProgram_of_collectNames hsound hN, runProgram_of_collectNames hsound' hN']
  obtain ⟨hseq, -⟩ := h.place Scope.starts_base hready hready' 0
  have hes := hseq.forall₂ (World.names_of_defines False _)
  have hruns := (matching False).evalSeqAt_follows (W := World.start N N') hes
    Simulation.EnvRel.empty depth
  refine hruns.lockstep id (World.fits_start N N') fun W r t r' t' _ hr => ?_
  exact hr.imp fun v v' hv => hv.mono W.link_le_alpha

/-- A function of two parameters that exchanges their names, and gives a closure over both. -/
theorem runProgram_alphaEq_exchanged :
    let p := [.define "f" (.lambda ["x", "y"]
        [.lambda ["z"] [.app (.var "x") [.var "z", .var "y"]]]),
      .app (.var "f") [.prim .cons, .quote (.symbol "a")]]
    let p' := [.define "f" (.lambda ["y", "x"]
        [.lambda ["w"] [.app (.var "y") [.var "w", .var "x"]]]),
      .app (.var "f") [.prim .cons, .quote (.symbol "a")]]
    (∀ e ∈ p, e.WellFormed ∧ e.Readable) ∧ (∀ e ∈ p', e.WellFormed ∧ e.Readable) ∧
      Expr.AlphaEqSeq p p' ∧ (runProgram 1 p).isSome = true ∧
      Option.Rel (fun r r' => Agree Value.AlphaEq r.1 r'.1) (runProgram 1 p)
        (runProgram 1 p') := by
  intro p p'
  have hp : ∀ e ∈ p, e.WellFormed ∧ e.Readable := by
    simp [p, Expr.WellFormed, Expr.Readable, Expr.Every, Expr.EveryAll, Expr.NodeWellFormed,
      Expr.NodeReadable, Expr.isDefinition, Value.isDict, Value.Readable]
  have hp' : ∀ e ∈ p', e.WellFormed ∧ e.Readable := by
    simp [p', Expr.WellFormed, Expr.Readable, Expr.Every, Expr.EveryAll, Expr.NodeWellFormed,
      Expr.NodeReadable, Expr.isDefinition, Value.isDict, Value.Readable]
  have h : Expr.AlphaEqSeq p p' := by
    refine .cons (.define trivial (.lambda rfl (.cons (.lambda rfl (.cons ?_ .nil)) .nil)))
      (.cons ?_ .nil)
    · refine .app (fun hs => hs.elim) (.var ?_) (.cons (.var ?_) (.cons (.var ?_) .nil))
      · exact .inr ⟨by decide, by decide, .inl (by decide)⟩
      · exact .inl (by decide)
      · exact .inr ⟨by decide, by decide, .inl (by decide)⟩
    · refine .app (fun hs => hs.elim) (.var ?_) (.cons (.prim _) (.cons (.quote (.plain rfl)) .nil))
      exact .inl (by decide)
  exact ⟨hp, hp', h, rfl, runProgram_alphaEq hp hp' h 1⟩

end Lambdict
