import Lambdict.Proofs.Alpha
import Lambdict.Proofs.Expansion
import Lambdict.Proofs.Parsed

/-!
# Searched dictionaries

Expanding a dictionary literal that is applied to a key into a search does not change what a program
comes to (`comesTo_lookup`).  The two runs do not keep step here: the search calls closures, so it
needs more depth and draws names, which gives different names to everything that is bound later.
Hence values agree only up to alpha-equivalence, once they are expanded.

A program matches its expansion when the runs begin (`Expr.Matches.desugar`), and a value that
matches another has an expansion that is alpha-equivalent to it (`Value.Matches.expand`).  All
between is the simulation of matching programs, in which a search follows a lookup.
-/

namespace Lambdict

namespace Expr

/-! ## The start of the runs -/

theorem desugarEntries_eq_zipWith (strategy : Strategy) (es : List (String × Expr)) :
    desugarEntries strategy es =
      List.zipWith Desugar.pairCall (es.map Prod.fst) (desugarAll strategy (es.map Prod.snd)) := by
  induction es with
  | nil => rfl
  | cons p es ih =>
    simp only [desugarEntries, desugarAll, List.map_cons, List.zipWith_cons_cons, ih]
    rfl

/-- Where a dictionary literal matches a call that makes it, its lookup matches a search. -/
theorem Matches.search_of_dict {L : Link} {Γ : Scope} (hs : L.expands)
    {es : List (String × Expr)} {pairs : List Expr}
    (hes : (Expr.dict es).Matches L Γ (Desugar.call .dict pairs)) {key key' : Expr}
    (hk : key.Matches L Γ key') {a b c a' b' c' : String} (ha : Γ.added [a, b, c])
    (ha' : Γ.added [a', b', c']) : (Expr.app (.dict es) [key]).Matches L Γ
      (Desugar.searchBy (Desugar.scannerOf a b c) (Desugar.scannerOf a' b' c') pairs key') := by
  generalize hcall : Desugar.call .dict pairs = e at hes
  cases hes with
  | dict hn => exact absurd hs hn
  | construct _ hv =>
    obtain rfl : pairs = _ := by simpa only [Desugar.call, Expr.app.injEq, true_and] using hcall
    exact .search hs hv hk ha ha'

variable {W : World}

theorem sound_of_desugar {ps : List String} {b : List Expr}
    (h : NodeReady W.left.reserved (.lambda ps b)) (h' : ∀ p ∈ ps, p ∈ W.right.reserved) :
    W.right.Sound ps :=
  ⟨h.1.1.2.1, h.1.1.1, fun p hp => .inl (h' p hp)⟩

mutual

/-- An expression matches its expansion when the runs begin. -/
theorem Matches.desugar (hsame : ∀ n, W.same (.given n) (.given n)) {Γ : Scope}
    (h : Scope.Reflects W Γ) : ∀ {e : Expr}, e.Every (NodeReady W.left.reserved) →
      (e.desugar .lookup).Every (NodeNames (· ∈ W.right.reserved)) →
      ∀ n, (e.place n).1.Matches (W.link True) Γ ((e.place n).1.desugar .lookup)
  | .number m, _, _, _ => .number m
  | .boolean b, _, _, _ => .boolean b
  | .string s, _, _, _ => .string s
  | .prim p, _, _, _ => .prim p
  | .var x, he, he', _ => .var (h.names x he.2 he')
  | .quote d, he, _, n => .quote (Value.Matches.refl_place hsame he.1.2 n)
  | .cond t c a, he, he', n =>
    .cond (Matches.desugar hsame h he.2.1 he'.2.1 _) (Matches.desugar hsame h he.2.2.1 he'.2.2.1 _)
      (Matches.desugar hsame h he.2.2.2 he'.2.2.2 _)
  | .lambda ps b, he, he', n =>
    .lambda (h.params ps (he.1.sound W.left) (sound_of_desugar he.1 he'.1))
      (MatchesSeq.desugar hsame (h.bind ps) he.2 he'.2 n)
  | .app f es, he, he', n => by
    have hf (hf' : (f.desugar .lookup).Every (NodeNames (· ∈ W.right.reserved))) :=
      Matches.desugar hsame h he.2.1 hf' n
    have hes (hes' : EveryAll (NodeNames (· ∈ W.right.reserved)) (desugarAll .lookup es)) :=
      MatchesEach.desugar hsame h he.2.2 hes' (f.place n).2
    -- a literal applied to a key becomes a search, all else stays an application
    rcases app_cases f es with ⟨ds, key, rfl, rfl⟩ | hne
    · obtain ⟨-, hscanner, -, hpairs, hkey, -⟩ := he'
      have hadded : Γ.added ["self", "entries", "box"] :=
        h.added _ ⟨by decide, by decide, fun p hp => .inl (hscanner.1 p hp)⟩
      have hds := hf ⟨trivial, trivial, hpairs.2.2⟩
      cases hes hkey.2.2 with
      | cons hkey _ => exact hds.search_of_dict trivial hkey hadded hadded
    · rw [desugar_app .lookup hne] at he'
      have hne' := place_app_cases n hne
      simp only [Expr.place, desugar_app .lookup hne']
      exact .app (fun _ => hne') (hf he'.2.1) (hes he'.2.2)
  | .define x e, he, he', n => .define ⟨he.1.2, he'.1⟩ (Matches.desugar hsame h he.2 he'.2 n)
  | .dict es, he, he', n => by
    simp only [Expr.place, Expr.desugar, desugarEntries_eq_zipWith]
    exact .construct trivial (MatchesEach.desugarEntries hsame h he.2 he'.2.2 n)

theorem MatchesSeq.desugar (hsame : ∀ n, W.same (.given n) (.given n)) {Γ : Scope}
    (h : Scope.Reflects W Γ) : ∀ {es : List Expr}, EveryAll (NodeReady W.left.reserved) es →
      EveryAll (NodeNames (· ∈ W.right.reserved)) (desugarAll .lookup es) →
      ∀ n, MatchesSeq (W.link True) Γ (placeAll n es).1 (desugarAll .lookup (placeAll n es).1)
  | [], _, _, _ => .nil
  | _ :: _, he, he', n =>
    .cons (Matches.desugar hsame h he.1 he'.1 n)
      (MatchesSeq.desugar hsame (h.after _) he.2 he'.2 _)

theorem MatchesEach.desugar (hsame : ∀ n, W.same (.given n) (.given n)) {Γ : Scope}
    (h : Scope.Reflects W Γ) : ∀ {es : List Expr}, EveryAll (NodeReady W.left.reserved) es →
      EveryAll (NodeNames (· ∈ W.right.reserved)) (desugarAll .lookup es) →
      ∀ n, MatchesEach (W.link True) Γ (placeAll n es).1 (desugarAll .lookup (placeAll n es).1)
  | [], _, _, _ => .nil
  | _ :: _, he, he', n =>
    .cons (Matches.desugar hsame h he.1 he'.1 n) (MatchesEach.desugar hsame h he.2 he'.2 _)

theorem MatchesEach.desugarEntries (hsame : ∀ n, W.same (.given n) (.given n)) {Γ : Scope}
    (h : Scope.Reflects W Γ) : ∀ {es : List (String × Expr)},
      EveryEntry (NodeReady W.left.reserved) es →
      EveryAll (NodeNames (· ∈ W.right.reserved)) (Expr.desugarEntries .lookup es) →
      ∀ n, MatchesEach (W.link True) Γ ((placeEntries n es).1.map Prod.snd)
        (desugarAll .lookup ((placeEntries n es).1.map Prod.snd))
  | [], _, _, _ => .nil
  | (_, _) :: _, he, he', n =>
    .cons (Matches.desugar hsame h he.1 he'.1.2.2.2.1 n)
      (MatchesEach.desugarEntries hsame h he.2 he'.2 _)

end

/-! ## The end of the runs -/

theorem expandEntries_eq_zipWith (strategy : Strategy) (es : List (String × Expr)) :
    expandEntries strategy es =
      List.zipWith Desugar.pairCall (es.map Prod.fst) (expandAll strategy (es.map Prod.snd)) := by
  induction es with
  | nil => rfl
  | cons p es ih =>
    simp only [expandEntries, expandAll, List.map_cons, List.zipWith_cons_cons, ih]
    rfl

theorem MatchesEach.pairCalls {Γ : Scope} (ks : List String) {us vs : List Expr}
    (h : MatchesEach Link.alpha Γ us vs) : MatchesEach Link.alpha Γ
      (List.zipWith Desugar.pairCall ks us) (List.zipWith Desugar.pairCall ks vs) := by
  induction ks generalizing us vs with
  | nil => exact .nil
  | cons k ks ih =>
    cases h with
    | nil => exact .nil
    | cons hv hvs =>
      refine .cons ?_ (ih hvs)
      exact .app (fun hs => hs.elim) (.prim .cons) (.cons (.quote (.plain rfl)) (.cons hv .nil))

end Expr

/-- The scope of two runs and a scope of alpha-equivalence at the same place. -/
structure Scope.Ends (Γ Δ : Scope) : Prop where
  names : ∀ x y, Γ.names x y → Δ.names x y
  params : ∀ ps qs, Γ.params ps qs → ps.length = qs.length
  lengths : ∀ ps qs, ps.length = qs.length → Δ.params ps qs

theorem Scope.Ends.bind {Γ Δ : Scope} (h : Γ.Ends Δ) (ps qs : List String) :
    (Γ.bind ps qs).Ends (Δ.bind ps qs) :=
  ⟨fun _ _ => Pairing.bind_mono h.names, h.params, h.lengths⟩

theorem Scope.Ends.after {Γ Δ : Scope} (h : Γ.Ends Δ) (e : Expr) :
    (Γ.after e).Ends (Δ.after (e.expand .lookup)) := by
  cases e with
  | define x e => exact h.bind [x] [x]
  | app f es =>
    obtain ⟨f', es', happ⟩ := Expr.exists_expand_app .lookup f es
    rw [happ]
    exact h
  | _ => exact h

theorem World.ends_base (W : World) : (W.link True).base.Ends Link.alpha.base :=
  ⟨fun _ _ h => h.1, fun _ _ h => h.1, fun _ _ h => h⟩

/-- All searching lambdas are alpha-equivalent. -/
theorem Desugar.scannerOf_matches {Γ : Scope}
    (h : ∀ ps qs : List String, ps.length = qs.length → Γ.params ps qs) (a b c a' b' c' : String) :
    (scannerOf a b c).Matches Link.alpha Γ (scannerOf a' b' c') := by
  refine .lambda (h _ _ rfl) (.cons ?_ .nil)
  have hcall (p : Primitive) {es es' : List Expr}
      (hes : Expr.MatchesEach Link.alpha (Γ.bind [a, b, c] [a', b', c']) es es') :
      (call p es).Matches Link.alpha (Γ.bind [a, b, c] [a', b', c']) (call p es') :=
    .app (fun hs => hs.elim) (.prim p) hes
  have hself : (Expr.var a).Matches Link.alpha (Γ.bind [a, b, c] [a', b', c']) (.var a') :=
    .var (.inl (by simp))
  have hentries : (Expr.var b).Matches Link.alpha (Γ.bind [a, b, c] [a', b', c']) (.var b') :=
    .var (.inl (by simp))
  have hbox : (Expr.var c).Matches Link.alpha (Γ.bind [a, b, c] [a', b', c']) (.var c') :=
    .var (.inl (by simp))
  have hentry := hcall .car (.cons hentries .nil)
  have hkey := hcall .car (.cons hbox .nil)
  refine .cond (hcall .isPair (.cons hentries .nil)) (.cond ?_ ?_ ?_) ?_
  · exact hcall .eq (.cons (hcall .car (.cons hentry .nil)) (.cons hkey .nil))
  · exact hcall .cdr (.cons hentry .nil)
  · exact .app (fun hs => hs.elim) hself
      (.cons hself (.cons (hcall .cdr (.cons hentries .nil)) (.cons hbox .nil)))
  · exact .app (fun hs => hs.elim) (hcall .dict .nil) (.cons hkey .nil)

theorem Value.keys_expandEntries (strategy : Strategy) (es : List (String × Value)) :
    (Value.expandEntries strategy es).map Prod.fst = es.map Prod.fst := by
  induction es with
  | nil => rfl
  | cons p es ih => simp only [Value.expandEntries, List.map_cons, ih]

theorem Value.values_expandEntries (strategy : Strategy) (es : List (String × Value)) :
    (Value.expandEntries strategy es).map Prod.snd =
      (es.map Prod.snd).map (Value.expand strategy) := by
  induction es with
  | nil => rfl
  | cons p es ih => simp only [Value.expandEntries, List.map_cons, ih]

variable {W : World}

mutual

/-- The expansion of an expression is alpha-equivalent to what the expression matches. -/
theorem Expr.Matches.expand {Γ Δ : Scope} (h : Γ.Ends Δ) {e e' : Expr} :
    e.Matches (W.link True) Γ e' → (e.expand .lookup).Matches Link.alpha Δ e'
  | .number n => .number n
  | .boolean b => .boolean b
  | .string s => .string s
  | .prim p => .prim p
  | .var hxy => .var (h.names _ _ hxy)
  | .quote hd => .quote hd.expand
  | .cond ht hc ha => .cond (ht.expand h) (hc.expand h) (ha.expand h)
  | .lambda hp hb => .lambda (h.lengths _ _ (h.params _ _ hp)) (hb.expand (h.bind _ _))
  | .app hn hf hes => by
    rw [Expr.expand_app .lookup (hn trivial)]
    exact .app (fun hs => hs.elim) (hf.expand h) (hes.expand h)
  | .define _ he => .define trivial (he.expand h)
  | .dict hn _ _ => absurd trivial hn
  | .construct _ hv => by
    simp only [Expr.expand, Expr.expandEntries_eq_zipWith]
    exact .app (fun hs => hs.elim) (.prim .dict) ((hv.expand h).pairCalls _)
  | .search _ hv hk _ _ => by
    have hscanner := Desugar.scannerOf_matches h.lengths "self" "entries" "box"
    simp only [Expr.expand, Expr.expandEntries_eq_zipWith]
    refine .app (fun hs => hs.elim) (hscanner _ _ _)
      (.cons (hscanner _ _ _) (.cons ?_ (.cons ?_ .nil)))
    · exact .app (fun hs => hs.elim) (.prim .list) ((hv.expand h).pairCalls _)
    · exact .app (fun hs => hs.elim) (.prim .list) (.cons (hk.expand h) .nil)

theorem Expr.MatchesSeq.expand {Γ Δ : Scope} (h : Γ.Ends Δ) {es es' : List Expr} :
    Expr.MatchesSeq (W.link True) Γ es es' →
      Expr.MatchesSeq Link.alpha Δ (Expr.expandAll .lookup es) es'
  | .nil => .nil
  | .cons he hes => .cons (he.expand h) (hes.expand (h.after _))

theorem Expr.MatchesEach.expand {Γ Δ : Scope} (h : Γ.Ends Δ) {es es' : List Expr} :
    Expr.MatchesEach (W.link True) Γ es es' →
      Expr.MatchesEach Link.alpha Δ (Expr.expandAll .lookup es) es'
  | .nil => .nil
  | .cons he hes => .cons (he.expand h) (hes.expand h)

/-- The expansion of a value is alpha-equivalent to what the value matches. -/
theorem Value.Matches.expand {v v' : Value} :
    v.Matches (W.link True) v' → (v.expand .lookup).AlphaEq v'
  | .plain hv => by
    cases v with
    | pair | closure | dict | code | sequence => cases hv
    | _ => exact .plain rfl
  | .pair _ hh ht => .pair trivial hh.expand ht.expand
  | .closure _ hp hb => .closure trivial hp.1 (hb.expand (W.ends_base.bind _ _))
  | .dict _ hk hv => by
    refine .dict trivial ?_ ?_
    · rw [Value.keys_expandEntries, hk]
    · rw [Value.values_expandEntries]
      exact hv.expand

theorem Value.MatchesAll.expand {vs vs' : List Value} :
    Value.MatchesAll (W.link True) vs vs' →
      Value.MatchesAll Link.alpha (vs.map (Value.expand .lookup)) vs'
  | .nil => .nil
  | .cons hv hvs => .cons hv.expand hvs.expand

end

/-! ## Programs -/

/-- How the ends of a run and of the run of its expansion compare: values up to expansion and
alpha-equivalence, errors up to their messages. -/
def SearchedEnd (r r' : Except Error Value × Store) : Prop :=
  Agree (fun v v' => (v.expand .lookup).AlphaEq v') r.1 r'.1

/-- The runs of a program and of its expansion begin with matching sequences. -/
theorem starts_lookup {p : List Expr} (hp : Expr.EveryAll Expr.NodeSound p) :
    (matching True).Starts p (Expr.desugarAll .lookup p) := by
  have hp' := Expr.EveryAll.desugar .lookup hp
  obtain ⟨N, hN, hready⟩ := exists_ready hp
  obtain ⟨N', hN', hready'⟩ := exists_ready hp'
  have hnames := Expr.EveryAll.imp (fun _ h => h.2) hready'
  have hseq := Expr.MatchesSeq.desugar (W := World.start N N') (fun n => ⟨n, rfl, rfl⟩)
    (Scope.Reflects.base True _) hready hnames 0
  refine ⟨_, _, _, _, _, World.fits_start N N', hseq.forall₂ (World.names_of_defines True _),
    fun k => runProgram_of_collectNames hp hN k, fun k => ?_⟩
  rw [runProgram_of_collectNames hp' hN', Expr.placeAll_desugarAll]

/-- The run of an expanded program follows that of the program. -/
theorem runProgram_desugar_lookup {p : List Expr} (hp : Expr.EveryAll Expr.NodeSound p)
    (depth : Nat) :
    (runProgram depth p = none → runProgram depth (Expr.desugarAll .lookup p) = none) ∧
      ∀ r, runProgram depth p = some r →
        ∃ r', ComesTo (Expr.desugarAll .lookup p) r' ∧ SearchedEnd r r' := by
  obtain ⟨W, s, s', es, es', hs, hes, hrun, hrun'⟩ := starts_lookup hp
  have hruns := (matching True).evalSeqAt_follows hes Simulation.EnvRel.empty depth
  obtain ⟨hnone, hsome⟩ := hruns s s' hs
  rw [hrun, hrun']
  refine ⟨hnone, fun r hr => ?_⟩
  obtain ⟨k, r', t', W', -, hk, -, -, hagree⟩ := hsome r.1 r.2 hr
  exact ⟨(r', t'), ⟨k, (hrun' k).trans hk⟩, hagree.imp fun _ _ hv => hv.expand⟩

/-- **A parsed program and its expansion by *lookup* come to the same.**  If one of them comes to an
end, so does the other, with a value that is the same up to expansion and alpha-equivalence, or with
a condition of the same kind that names the same unbound variable or missing key, or with the same
abort. -/
theorem comesTo_lookup {text : String} {p : List Expr} (h : parseProgram text = .ok p) :
    (∀ r, ComesTo p r → ∃ r', ComesTo (Expr.desugarAll .lookup p) r' ∧ SearchedEnd r r') ∧
      ∀ r', ComesTo (Expr.desugarAll .lookup p) r' → ∃ r, ComesTo p r ∧ SearchedEnd r r' := by
  have hp := parseProgram_sound h
  refine ⟨fun r ⟨depth, hr⟩ => (runProgram_desugar_lookup hp depth).2 r hr, ?_⟩
  rintro r' ⟨depth, hr'⟩
  obtain ⟨hnone, hsome⟩ := runProgram_desugar_lookup hp depth
  cases hr : runProgram depth p with
  | none =>
    rw [hnone hr] at hr'
    cases hr'
  | some r =>
    obtain ⟨r'', hr'', hends⟩ := hsome r hr
    -- a program comes to one end only, so this is the given one
    obtain rfl := hr''.unique ⟨depth, hr'⟩
    exact ⟨r, ⟨depth, hr⟩, hends⟩

/-- A program that itself uses a name of the search. -/
theorem comesTo_lookup_self :
    let p := [.define "self" (.quote (.symbol "c")),
      .app (.dict [("a", .var "self"), ("b", .quote (.symbol "d"))]) [.quote (.symbol "b")]]
    let r := (.ok (.symbol "d"), ⟨.start (.ofList ["self"]), 3, false⟩)
    parseProgram "(define self 'c) ((dict (a self) (b 'd)) 'b)" = .ok p ∧ ComesTo p r ∧
      ∃ r', ComesTo (Expr.desugarAll .lookup p) r' ∧ SearchedEnd r r' := by
  intro p r
  have h : parseProgram "(define self 'c) ((dict (a self) (b 'd)) 'b)" = .ok p := rfl
  have hr : ComesTo p r := ⟨0, rfl⟩
  exact ⟨h, hr, (comesTo_lookup h).1 r hr⟩

end Lambdict
