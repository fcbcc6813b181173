import Lambdict.Proofs.Fresh
import Lambdict.Proofs.Matching.Substitution
import Lambdict.Proofs.Search

/-!
# Renaming keeps expressions matching

Renaming two matching expressions, each with a supply of its own, gives matching expressions
(`Expr.Matches.rename`).  The parameters it puts in are drawn from the two supplies while it goes
on, and that is all that can be said of them afterwards; so it is what the scope of the renamed
expressions records (`Scope.drawn`).

Inner lambdas are renamed before outer ones.  Hence the parameters of an outer lambda are drawn
after those inside it, and putting them in captures nothing (`Scope.Served.carries_fresh`).
-/

namespace Lambdict

/-- The scope of what was renamed, the parameters having been drawn from two supplies meanwhile. -/
def Scope.drawn (Γ : Scope) (s t s' t' : NameSupply) : Scope where
  names := Γ.names
  params ps qs := ps.length = qs.length ∧ s.DrawnAll t ps ∧ s'.DrawnAll t' qs
  added := s'.DrawnAll t'

/-- A scope admits more parameters when more names have been drawn. -/
theorem Scope.drawn_le (Γ : Scope) {s t s' t' u v u' v' : NameSupply} (hu : u.Le s) (hv : t.Le v)
    (hu' : u'.Le s') (hv' : t'.Le v') : (Γ.drawn s t s' t').Le (Γ.drawn u v u' v') :=
  ⟨fun _ _ h => h, fun _ _ ⟨hl, hp, hq⟩ => ⟨hl, hp.mono hu hv, hq.mono hu' hv'⟩,
    fun _ h => h.mono hu' hv'⟩

/-- **Two supplies serve a scope**: they will give no name that is in sight there. -/
structure Scope.Served (L : Link) (Γ : Scope) (s s' : NameSupply) : Prop where
  names : ∀ x y, Γ.names x y → s.Covers x ∧ s'.Covers y
  params : ∀ ps qs, Γ.params ps qs → ps.length = qs.length ∧ s.Sound ps ∧ s'.Sound qs
  added : ∀ ps, Γ.added ps → s'.Sound ps
  defines : ∀ z, L.defines z → z ∈ s.reserved ∧ z ∈ s'.reserved

namespace Scope.Served

variable {L : Link} {Γ : Scope} {s t s' t' : NameSupply}

/-- Later supplies serve a scope as well. -/
theorem mono (h : Γ.Served L s s') (hs : s.Le t) (hs' : s'.Le t') : Γ.Served L t t' where
  names x y hxy := ⟨(h.names x y hxy).1.mono hs, (h.names x y hxy).2.mono hs'⟩
  params ps qs hp := by
    obtain ⟨hl, hps, hqs⟩ := h.params ps qs hp
    exact ⟨hl, hps.mono hs, hqs.mono hs'⟩
  added ps hp := (h.added ps hp).mono hs'
  defines z hz := ⟨hs.reserved z (h.defines z hz).1, hs'.reserved z (h.defines z hz).2⟩

/-- Supplies serve the scope inside lambdas whose parameters they cover. -/
theorem bind (h : Γ.Served L s s') {ps qs : List String} (hps : ∀ p ∈ ps, s.Covers p)
    (hqs : ∀ q ∈ qs, s'.Covers q) : (Γ.bind ps qs).Served L s s' := by
  refine ⟨?_, h.params, h.added, h.defines⟩
  rintro x y (hmem | ⟨-, -, hxy⟩)
  · obtain ⟨hx, hy⟩ := List.of_mem_zip hmem
    exact ⟨hps x hx, hqs y hy⟩
  · exact h.names x y hxy

/-- Supplies serve the scope after an element of a sequence. -/
theorem after (h : Γ.Served L s s') {e e' : Expr} (he : e.Matches L Γ e') :
    (Γ.after e).Served L s s' := by
  cases he with
  | @define Γ z e e' hz he =>
    obtain ⟨hr, hr'⟩ := h.defines z hz
    refine h.bind ?_ ?_
    · exact List.forall_mem_singleton.2 (.inl hr)
    · exact List.forall_mem_singleton.2 (.inl hr')
  | _ => exact h

/-- The scope in which two lists of names are paired, and nothing else. -/
def paired (ps qs : List String) : Scope where
  names x y := (x, y) ∈ ps.zip qs
  params _ _ := False
  added _ := False

/-- Fresh names can be put in for the parameters of a lambda: they were drawn after all parameters
inside it, and are different from all names in sight. -/
theorem carries_fresh (h : Γ.Served L s s') {ps qs : List String} (hp : Γ.params ps qs)
    (hs : s.Le t) (hs' : s'.Le t') :
    Substitution.Carries L (paired (t.freshAll ps).1 (t'.freshAll qs).1)
      ((Γ.bind ps qs).drawn s t s' t')
      ((Γ.drawn s (t.freshAll ps).2 s' (t'.freshAll qs).2).bind (t.freshAll ps).1
        (t'.freshAll qs).1)
      (.ofLists ps ((t.freshAll ps).1.map .var)) (.ofLists qs ((t'.freshAll qs).1.map .var)) := by
  obtain ⟨hl, hps, hqs⟩ := h.params ps qs hp
  have hrs := t.freshAll_drawn ps
  have hrs' := t'.freshAll_drawn qs
  have hlen := t.length_freshAll ps
  have hlen' := t'.length_freshAll qs
  -- from here on it only matters how the fresh names were drawn
  generalize (t.freshAll ps).1 = rs at hrs hlen ⊢
  generalize (t'.freshAll qs).1 = rs' at hrs' hlen' ⊢
  have hvars : List.Forall₂ (fun e e' => e.Matches L (paired rs rs') e' ∧ Substitution.Insertable e)
      (rs.map .var) (rs'.map .var) := by
    rw [List.forall₂_map_left_iff, List.forall₂_map_right_iff, List.forall₂_iff_zip]
    refine ⟨by omega, fun hmem => ⟨.var hmem, trivial⟩⟩
  refine ⟨?_, ?_, ?_, ?_, ?_, ?_⟩
  · rintro x y (hmem | ⟨hx, hy, hxy⟩)
    · obtain ⟨e, e', he, he', hm, hi⟩ := Substitution.find?_ofLists_of_mem hvars
        (by simpa using hlen) hl hps.nodup hqs.nodup hmem
      exact .inl ⟨e, e', he, he', hm, hi⟩
    · -- a name from outside is covered, so it is none of the fresh ones
      obtain ⟨hcx, hcy⟩ := h.names x y hxy
      refine .inr ⟨Substitution.find?_ofLists_of_not_mem hx _,
        Substitution.find?_ofLists_of_not_mem hy _, .inr ⟨fun hm => ?_, fun hm => ?_, hxy⟩⟩
      · exact (hcx.mono hs).ne (hrs.drawn x hm) rfl
      · exact (hcy.mono hs').ne (hrs'.drawn y hm) rfl
  · exact ⟨fun x y hmem => .inl hmem, fun _ _ hf => hf.elim, fun _ hf => hf.elim⟩
  · exact (Γ.drawn_le (.refl s) (t.le_freshAll ps) (.refl s') (t'.le_freshAll qs)).params
  · exact (Γ.drawn_le (.refl s) (t.le_freshAll ps) (.refl s') (t'.le_freshAll qs)).added
  · rintro ps' qs' ⟨-, hps', hqs'⟩ x y hmem
    -- parameters inside were drawn before, and are covered by now
    obtain ⟨hx, hy⟩ := List.of_mem_zip hmem
    refine ⟨fun hm => ?_, fun hm => ?_⟩
    · exact (hps'.drawn x hm).covers.ne (hrs.drawn x hx) rfl
    · exact (hqs'.drawn y hm).covers.ne (hrs'.drawn y hy) rfl
  · intro z hz x y hmem
    obtain ⟨hx, hy⟩ := List.of_mem_zip hmem
    -- defined names are reserved, fresh names are not
    obtain ⟨hr, hr'⟩ := h.defines z hz
    refine iff_of_false ?_ ?_
    · rintro rfl
      exact (hrs.drawn x hx).fresh (hs.reserved x hr)
    · rintro rfl
      exact (hrs'.drawn y hy).fresh (hs'.reserved y hr')

end Scope.Served

namespace Expr

/-- To rename an expanded literal is to rename its values. -/
theorem renameAll_pairCalls {ks : List String} {vs : List Expr} (h : ks.length = vs.length)
    (s : NameSupply) : renameAll (List.zipWith Desugar.pairCall ks vs) s =
      (List.zipWith Desugar.pairCall ks (renameAll vs s).1, (renameAll vs s).2) := by
  induction ks generalizing vs s with
  | nil =>
    obtain rfl := List.length_eq_zero_iff.1 h.symm
    rfl
  | cons k ks ih =>
    match vs, h with
    | v :: vs, h =>
      simp only [List.zipWith_cons_cons, renameAll, ih (Nat.succ.inj h), Desugar.pairCall,
        Desugar.call, rename]

/-- A scanner is renamed to a scanner with drawn names. -/
theorem rename_scannerOf {a b c : String} {s : NameSupply} (h : s.Sound [a, b, c]) :
    ∃ x y z t, (Desugar.scannerOf a b c).rename s = (Desugar.scannerOf x y z, t) ∧ s.Le t ∧
      s.DrawnAll t [x, y, z] := by
  have hle := s.le_freshAll [a, b, c]
  have hdrawn := s.freshAll_drawn [a, b, c]
  obtain ⟨x, y, z, hfresh⟩ : ∃ x y z, (s.freshAll [a, b, c]).1 = [x, y, z] := ⟨_, _, _, rfl⟩
  rw [hfresh] at hdrawn
  refine ⟨x, y, z, _, ?_, hle, hdrawn⟩
  simp only [Desugar.scannerOf, rename, Desugar.renameAll_scan, hfresh, List.map_cons, List.map_nil,
    Desugar.substSeq_scan ⟨h.nodup, h.nonempty⟩]

/-- A search is renamed part by part. -/
theorem rename_searchBy (f g : Expr) (pairs : List Expr) (key : Expr) (s : NameSupply) :
    (Desugar.searchBy f g pairs key).rename s =
      (let (f', s₁) := f.rename s
      let (g', s₂) := g.rename s₁
      let (pairs', s₃) := renameAll pairs s₂
      let (key', s₄) := key.rename s₃
      (Desugar.searchBy f' g' pairs' key', s₄)) := rfl

/-- Renaming a search draws names for its two searching lambdas first. -/
theorem rename_search {a b c a' b' c' : String} {s : NameSupply} (h : s.Sound [a, b, c])
    (h' : s.Sound [a', b', c']) {ks : List String} {vs : List Expr} (hlen : ks.length = vs.length)
    (key : Expr) : ∃ x y z x' y' z' t t', s.Le t ∧ t.Le t' ∧ s.DrawnAll t [x, y, z] ∧
      t.DrawnAll t' [x', y', z'] ∧
      (Desugar.searchBy (Desugar.scannerOf a b c) (Desugar.scannerOf a' b' c')
          (List.zipWith Desugar.pairCall ks vs) key).rename s =
        (Desugar.searchBy (Desugar.scannerOf x y z) (Desugar.scannerOf x' y' z')
            (List.zipWith Desugar.pairCall ks (renameAll vs t').1)
            (key.rename (renameAll vs t').2).1,
          (key.rename (renameAll vs t').2).2) := by
  obtain ⟨x, y, z, t, hscan, hle, hdrawn⟩ := rename_scannerOf h
  obtain ⟨x', y', z', t', hscan', hle', hdrawn'⟩ := rename_scannerOf (h'.mono hle)
  refine ⟨x, y, z, x', y', z', t, t', hle, hle', hdrawn, hdrawn', ?_⟩
  rw [rename_searchBy, hscan]
  dsimp only
  rw [hscan']
  dsimp only
  rw [renameAll_pairCalls hlen]

/-- Only a literal is renamed to a literal. -/
theorem eq_dict_of_rename {f : Expr} {s : NameSupply} {ds : List (String × Expr)}
    (h : (f.rename s).1 = .dict ds) : ∃ ds', f = .dict ds' := by
  cases f with
  | dict ds' => exact ⟨ds', rfl⟩
  | _ => cases h

/-- Only a single argument is renamed to a single argument. -/
theorem renameAll_eq_singleton {es : List Expr} {s : NameSupply} {key : Expr}
    (h : (renameAll es s).1 = [key]) : ∃ e, es = [e] := by
  match es, h with
  | [e], _ => exact ⟨e, rfl⟩

/-- A definition stays one when it is renamed, so the scope after it is the same. -/
theorem after_drawn (Γ : Scope) (s t s' t' u : NameSupply) (e : Expr) :
    (Γ.drawn s t s' t').after (e.rename u).1 = (Γ.after e).drawn s t s' t' := by
  cases e <;> rfl

variable {L : Link}

mutual

/-- **Renaming keeps expressions matching.** -/
theorem Matches.rename {Γ : Scope} {s s' : NameSupply} (h : Γ.Served L s s') {e e' : Expr} :
    e.Matches L Γ e' → (e.rename s).1.Matches L
      (Γ.drawn s (e.rename s).2 s' (e'.rename s').2) (e'.rename s').1
  | .number n => .number n
  | .boolean b => .boolean b
  | .string s => .string s
  | .prim p => .prim p
  | .var hxy => .var hxy
  | .quote hd => .quote hd
  | @Matches.cond _ _ t t' c c' a a' ht hc ha => by
    have ht₁ := le_rename t s
    have hc₁ := le_rename c (t.rename s).2
    have ha₁ := le_rename a (c.rename (t.rename s).2).2
    have ht₂ := le_rename t' s'
    have hc₂ := le_rename c' (t'.rename s').2
    have ha₂ := le_rename a' (c'.rename (t'.rename s').2).2
    -- each part draws within a span of the whole
    simp only [Expr.rename]
    refine .cond ((ht.rename h).mono (.refl L) ?_) ((hc.rename (h.mono ht₁ ht₂)).mono (.refl L) ?_)
      ((ha.rename (h.mono (ht₁.trans hc₁) (ht₂.trans hc₂))).mono (.refl L) ?_)
    · exact Γ.drawn_le (.refl s) (hc₁.trans ha₁) (.refl s') (hc₂.trans ha₂)
    · exact Γ.drawn_le ht₁ ha₁ ht₂ ha₂
    · exact Γ.drawn_le (ht₁.trans hc₁) (.refl _) (ht₂.trans hc₂) (.refl _)
  | @Matches.lambda _ _ ps qs b b' hp hb => by
    obtain ⟨hl, hps, hqs⟩ := h.params ps qs hp
    have hs := le_renameAll b s
    have hs' := le_renameAll b' s'
    -- the body is renamed first, and then its parameters are drawn
    have hbody := hb.rename (h.bind hps.covers hqs.covers)
    simp only [Expr.rename]
    refine .lambda ⟨?_, ?_, ?_⟩ (hbody.subst (h.carries_fresh hp hs hs'))
    · rw [NameSupply.length_freshAll, NameSupply.length_freshAll, hl]
    · exact (NameSupply.freshAll_drawn _ ps).mono hs (.refl _)
    · exact (NameSupply.freshAll_drawn _ qs).mono hs' (.refl _)
  | @Matches.app _ _ f f' es es' hn hf hes => by
    have hf₁ := le_rename f s
    have hf₂ := le_rename f' s'
    simp only [Expr.rename]
    refine .app ?_ ((hf.rename h).mono (.refl L) ?_)
      ((hes.rename (h.mono hf₁ hf₂)).mono (.refl L) ?_)
    · intro hs ds key hds hkey
      obtain ⟨ds', rfl⟩ := eq_dict_of_rename hds
      obtain ⟨key', rfl⟩ := renameAll_eq_singleton hkey
      exact hn hs ds' key' rfl rfl
    · exact Γ.drawn_le (.refl s) (le_renameAll es _) (.refl s') (le_renameAll es' _)
    · exact Γ.drawn_le hf₁ (.refl _) hf₂ (.refl _)
  | .define hx he => by
    simp only [Expr.rename]
    exact .define hx (he.rename h)
  | @Matches.dict _ _ es es' hn hk hv => by
    obtain ⟨hvalues, hsupply⟩ := values_renameEntries es s
    obtain ⟨hvalues', hsupply'⟩ := values_renameEntries es' s'
    simp only [Expr.rename, hsupply, hsupply']
    refine .dict hn ?_ ?_
    · rw [keys_renameEntries, keys_renameEntries, hk]
    · rw [hvalues, hvalues']
      exact hv.rename h
  | @Matches.construct _ _ es vs hs hv => by
    obtain ⟨hvalues, hsupply⟩ := values_renameEntries es s
    have hlen : (es.map Prod.fst).length = vs.length := by simpa using hv.length_eq
    simp only [Expr.rename, hsupply, Desugar.call, renameAll_pairCalls hlen]
    rw [← keys_renameEntries es s]
    refine .construct hs ?_
    rw [hvalues]
    exact hv.rename h
  | @Matches.search _ _ es vs key key' a b c a' b' c' hs hv hk ha ha' => by
    obtain ⟨hvalues, hsupply⟩ := values_renameEntries es s
    have hlen : (es.map Prod.fst).length = vs.length := by simpa using hv.length_eq
    obtain ⟨x, y, z, x', y', z', t, t', hle₁, hle₂, hdrawn, hdrawn', hren⟩ :=
      rename_search (h.added _ ha) (h.added _ ha') hlen key'
    -- only the second side has searching lambdas; it draws their names before the rest
    have hle := hle₁.trans hle₂
    have hv₁ := le_renameAll (es.map Prod.snd) s
    have hv₂ := le_renameAll vs t'
    have hk₁ := le_rename key (renameAll (es.map Prod.snd) s).2
    have hk₂ := le_rename key' (renameAll vs t').2
    rw [hren]
    simp only [Expr.rename, renameAll, hsupply]
    rw [← keys_renameEntries es s]
    refine .search hs ?_ ((hk.rename (h.mono hv₁ (hle.trans hv₂))).mono (.refl L) ?_) ?_ ?_
    · rw [hvalues]
      exact (hv.rename (h.mono (.refl s) hle)).mono (.refl L)
        (Γ.drawn_le (.refl s) hk₁ hle hk₂)
    · exact Γ.drawn_le hv₁ (.refl _) (hle.trans hv₂) (.refl _)
    · exact hdrawn.mono (.refl s') ((hle₂.trans hv₂).trans hk₂)
    · exact hdrawn'.mono hle₁ (hv₂.trans hk₂)

/-- Sequences that match are renamed to sequences that match. -/
theorem MatchesSeq.rename {Γ : Scope} {s s' : NameSupply} (h : Γ.Served L s s')
    {es es' : List Expr} : MatchesSeq L Γ es es' →
      MatchesSeq L (Γ.drawn s (renameAll es s).2 s' (renameAll es' s').2)
        (renameAll es s).1 (renameAll es' s').1
  | .nil => .nil
  | @MatchesSeq.cons _ _ e e' es es' he hes => by
    have he₁ := le_rename e s
    have he₂ := le_rename e' s'
    have hrest := hes.rename ((h.after he).mono he₁ he₂)
    simp only [renameAll]
    refine .cons ((he.rename h).mono (.refl L) ?_) (hrest.mono (.refl L) ?_)
    · exact Γ.drawn_le (.refl s) (le_renameAll es _) (.refl s') (le_renameAll es' _)
    · rw [after_drawn]
      exact (Γ.after e).drawn_le he₁ (.refl _) he₂ (.refl _)

theorem MatchesEach.rename {Γ : Scope} {s s' : NameSupply} (h : Γ.Served L s s')
    {es es' : List Expr} : MatchesEach L Γ es es' →
      MatchesEach L (Γ.drawn s (renameAll es s).2 s' (renameAll es' s').2)
        (renameAll es s).1 (renameAll es' s').1
  | .nil => .nil
  | @MatchesEach.cons _ _ e e' es es' he hes => by
    have he₁ := le_rename e s
    have he₂ := le_rename e' s'
    simp only [renameAll]
    refine .cons ((he.rename h).mono (.refl L) ?_)
      ((hes.rename (h.mono he₁ he₂)).mono (.refl L) ?_)
    · exact Γ.drawn_le (.refl s) (le_renameAll es _) (.refl s') (le_renameAll es' _)
    · exact Γ.drawn_le he₁ (.refl _) he₂ (.refl _)

end

end Expr

end Lambdict
