import Lambdict.Proofs.Fresh
import Lambdict.Proofs.Nameless.Substitution

/-!
# Renaming without names

The call of a closure gives fresh names to all parameters in the body.  Two things can be said of
the renamed body.  In the nameless form it is the body itself (`Expr.nameless_rename`), and its
parameters have names that were just drawn, while all other names in it are covered
(`Expr.EveryAll.renamed`).

The renaming of a lambda is a substitution in its renamed body.  So the first of these rests on the
second: a fresh name for a parameter is caught neither by a lambda further inside, whose parameters
were drawn before, nor by a definition.
-/

namespace Lambdict

namespace Substitution

/-- Where the names differ from each other, each is replaced by the expression at its place. -/
theorem find?_ofLists_getElem {ps : List String} {es : List Expr} (hps : ps.Nodup)
    (hlen : es.length = ps.length) {i : Nat} {x : String} (h : ps[i]? = some x) :
    (ofLists ps es).find? x = es[i]? := by
  induction ps generalizing es i with
  | nil => cases h
  | cons p ps ih =>
    match es, hlen with
    | e :: es, hlen =>
      obtain ⟨hp, hps⟩ := List.nodup_cons.1 hps
      rw [find?_ofLists_cons]
      cases i with
      | zero =>
        obtain rfl := Option.some.inj h
        rw [find?_ofLists_of_not_mem hp, Option.none_or]
        simp
      | succ i =>
        have hx : x ∈ ps := List.mem_of_getElem? h
        have hne : (x == p) = false := by
          rw [beq_eq_false_iff_ne]
          rintro rfl
          exact hp hx
        rw [ih hps (Nat.succ.inj hlen) h, hne]
        simp

end Substitution

namespace Expr

/-! ## The names in a renamed expression -/

section

variable {R P : String → Prop}

mutual

/-- The parts of a substituted expression are those of the expression and of what is put in. -/
theorem Every.subst_parts {σ : Substitution} (hσ : ∀ r ∈ σ, r.2.Every (NodeParts R P)) :
    ∀ {e : Expr}, e.Every (NodeParts R P) → (e.subst σ).Every (NodeParts R P)
  | .var x, h => by
    rw [Expr.subst]
    cases hx : σ.find? x with
    | none => exact h
    | some e => exact hσ _ (Substitution.mem_of_find? hx)
  | .cond _ _ _, h =>
    ⟨trivial, h.2.1.subst_parts hσ, h.2.2.1.subst_parts hσ, h.2.2.2.subst_parts hσ⟩
  | .lambda ps _, h =>
    ⟨h.1, EveryAll.substSeq_parts (fun r hr => hσ r (List.mem_of_mem_filter hr)) h.2⟩
  | .app _ _, h => ⟨trivial, h.2.1.subst_parts hσ, EveryAll.substEach_parts hσ h.2.2⟩
  | .define _ _, h => ⟨h.1, h.2.subst_parts hσ⟩
  | .dict _, h => ⟨trivial, EveryEntry.substEntries_parts hσ h.2⟩
  | .number _, h | .boolean _, h | .string _, h | .prim _, h | .quote _, h | .foreign _, h => h
termination_by structural e => e

theorem EveryAll.substSeq_parts {σ : Substitution} (hσ : ∀ r ∈ σ, r.2.Every (NodeParts R P)) :
    ∀ {es : List Expr}, EveryAll (NodeParts R P) es → EveryAll (NodeParts R P) (substSeq σ es)
  | [], _ => trivial
  | e :: es, h => by
    have hafter : ∀ r ∈ σ.after e, r.2.Every (NodeParts R P) := by
      cases e with
      | define z d => exact fun r hr => hσ r (List.mem_of_mem_filter hr)
      | _ => exact hσ
    rw [substSeq_cons]
    exact ⟨h.1.subst_parts hσ, EveryAll.substSeq_parts hafter h.2⟩
termination_by structural es => es

theorem EveryAll.substEach_parts {σ : Substitution} (hσ : ∀ r ∈ σ, r.2.Every (NodeParts R P)) :
    ∀ {es : List Expr}, EveryAll (NodeParts R P) es → EveryAll (NodeParts R P) (substEach σ es)
  | [], _ => trivial
  | _ :: _, h => ⟨h.1.subst_parts hσ, EveryAll.substEach_parts hσ h.2⟩
termination_by structural es => es

theorem EveryEntry.substEntries_parts {σ : Substitution}
    (hσ : ∀ r ∈ σ, r.2.Every (NodeParts R P)) :
    ∀ {es : List (String × Expr)}, EveryEntry (NodeParts R P) es →
      EveryEntry (NodeParts R P) (substEntries σ es)
  | [], _ => trivial
  | (_, _) :: _, h => ⟨h.1.subst_parts hσ, EveryEntry.substEntries_parts hσ h.2⟩
termination_by structural es => es

end

end

/-- What the names at a node look like after a renaming between two moments of a supply: parameters
were drawn in between, and no other name will be given any more. -/
def NodeRenamed (s t : NameSupply) : Expr → Prop := NodeParts t.Covers (s.Drawn t)

/-- What was drawn between two supplies was drawn between any further apart. -/
theorem NodeRenamed.mono {s s' t t' : NameSupply} (hs : s'.Le s) (ht : t.Le t') (e : Expr)
    (h : NodeRenamed s t e) : NodeRenamed s' t' e :=
  NodeParts.imp (fun _ hx => hx.mono ht) (fun _ hx => hx.mono hs ht) e h

/-- Names that a supply will not give are not given by a later one. -/
theorem NodeNames.covers {s t : NameSupply} (h : s.Le t) (e : Expr)
    (he : NodeNames s.Covers e) : NodeNames t.Covers e :=
  NodeNames.imp (fun _ hx => hx.mono h) e he

mutual

/-- **A renamed expression has drawn parameters and its names from before.** -/
theorem Every.renamed : ∀ {e : Expr} (s : NameSupply), e.Every (NodeNames s.Covers) →
    (e.rename s).1.Every (NodeRenamed s (e.rename s).2)
  | .lambda ps b, s, h => by
    have hdrawn := (renameAll b s).2.freshAll_drawn ps
    have hle := (renameAll b s).2.le_freshAll ps
    have hbody := EveryAll.imp (NodeRenamed.mono (.refl s) hle) (EveryAll.renamed s h.2)
    refine ⟨fun p hp => (hdrawn.drawn p hp).mono (le_renameAll b s) (.refl _), ?_⟩
    refine EveryAll.substSeq_parts (fun r hr => ?_) hbody
    obtain ⟨y, hy, heq⟩ := List.mem_map.1 (List.of_mem_zip (List.mem_reverse.1 hr)).2
    rw [← heq]
    exact (hdrawn.drawn y hy).covers
  | .cond t c a, s, h => by
    have ht := le_rename t s
    have hc := le_rename c (t.rename s).2
    have ha := le_rename a (c.rename (t.rename s).2).2
    -- each part is renamed within a span of the whole
    refine ⟨trivial, ?_, ?_, ?_⟩
    · exact (h.2.1.renamed s).imp (NodeRenamed.mono (.refl s) (hc.trans ha))
    · exact ((h.2.2.1.imp (NodeNames.covers ht)).renamed _).imp (NodeRenamed.mono ht ha)
    · exact ((h.2.2.2.imp (NodeNames.covers (ht.trans hc))).renamed _).imp
        (NodeRenamed.mono (ht.trans hc) (.refl _))
  | .app f es, s, h => by
    have hf := le_rename f s
    refine ⟨trivial, (h.2.1.renamed s).imp (NodeRenamed.mono (.refl s) (le_renameAll es _)), ?_⟩
    exact EveryAll.imp (NodeRenamed.mono hf (.refl _))
      (EveryAll.renamed _ (EveryAll.imp (NodeNames.covers hf) h.2.2))
  | .define x e, s, h => ⟨h.1.mono (le_rename e s), h.2.renamed s⟩
  | .dict es, s, h => ⟨trivial, EveryEntry.renamed s h.2⟩
  | .var _, _, h => h
  | .number _, _, _ | .boolean _, _, _ | .string _, _, _ | .prim _, _, _ | .quote _, _, _
  | .foreign _, _, _ => trivial

/-- **After a renaming** all parameters were just drawn, and all other names are covered. -/
theorem EveryAll.renamed : ∀ {es : List Expr} (s : NameSupply), EveryAll (NodeNames s.Covers) es →
    EveryAll (NodeRenamed s (renameAll es s).2) (renameAll es s).1
  | [], _, _ => trivial
  | e :: es, s, h => by
    have he := le_rename e s
    refine ⟨(h.1.renamed s).imp (NodeRenamed.mono (.refl s) (le_renameAll es _)), ?_⟩
    exact EveryAll.imp (NodeRenamed.mono he (.refl _))
      (EveryAll.renamed _ (EveryAll.imp (NodeNames.covers he) h.2))

theorem EveryEntry.renamed : ∀ {es : List (String × Expr)} (s : NameSupply),
    EveryEntry (NodeNames s.Covers) es →
    EveryEntry (NodeRenamed s (renameEntries es s).2) (renameEntries es s).1
  | [], _, _ => trivial
  | (_, e) :: es, s, h => by
    have he := le_rename e s
    refine ⟨(h.1.renamed s).imp (NodeRenamed.mono (.refl s) (le_renameEntries es _)), ?_⟩
    exact EveryEntry.imp (NodeRenamed.mono he (.refl _))
      (EveryEntry.renamed _ (EveryEntry.imp (NodeNames.covers he) h.2))

end

/-! ## Renaming -/

/-- Fresh names for the parameters of a lambda are new names for the same parameters. -/
theorem follows_fresh (s t : NameSupply) {ps : List String} (hps : ps.Nodup) (Γ : Context) :
    Substitution.Follows t.Covers (s.Drawn t) [] (Γ.bind ps).length (Γ.bind ps)
      (Γ.bind (t.freshAll ps).1) (.ofLists ps ((t.freshAll ps).1.map .var)) := by
  have hdrawn := t.freshAll_drawn ps
  have hlen := t.length_freshAll ps
  generalize (t.freshAll ps).1 = qs at hdrawn hlen ⊢
  intro x hx
  by_cases hmem : x ∈ ps
  · obtain ⟨i, hi⟩ := List.getElem?_of_mem hmem
    obtain ⟨hlt, -⟩ := List.getElem?_eq_some_iff.1 hi
    have hq : qs[i]? = some qs[i] := List.getElem?_eq_getElem (by omega)
    have hy := hdrawn.drawn _ (List.mem_of_getElem? hq)
    refine .renamed (y := qs[i]) (i := i) ?_ (Context.index?_bind_getElem hps hi Γ)
      (Context.index?_bind_getElem hdrawn.nodup hq Γ) ?_ ?_ ?_
    · rw [Substitution.find?_ofLists_getElem hps (by simpa using hlen) hi, List.getElem?_map, hq,
        Option.map_some]
    · exact Context.index?_lt (Context.index?_bind_getElem hps hi Γ)
    · exact fun hcovers => hcovers.ne hy rfl
    · exact fun hd => hd.covers.ne hy rfl
  · have hmem' : x ∉ qs := fun hm => hx.ne (hdrawn.drawn x hm) rfl
    refine .stays (Substitution.find?_ofLists_of_not_mem hmem _) ?_ fun i hi => Context.index?_lt hi
    rw [Context.index?_bind_of_not_mem hmem, Context.index?_bind_of_not_mem hmem', hlen]

mutual

/-- **Renaming changes nothing but the names of parameters.** -/
theorem nameless_rename : ∀ {e : Expr} (s : NameSupply), e.Every NodeWellFormed →
    e.Every (NodeNames s.Covers) → ∀ Γ : Context, (e.rename s).1.nameless Γ = e.nameless Γ
  | .lambda ps b, s, hwf, h, Γ => by
    have hrenamed := EveryAll.renamed s h.2
    have hfollows := follows_fresh s (renameAll b s).2 hwf.1.2.1 Γ
    rw [rename, nameless, namelessSeq_subst hfollows hrenamed, Nameless.instantiateAll_nil,
      namelessSeq_renameAll s hwf.2 h.2, NameSupply.length_freshAll, nameless]
  | .cond t c a, s, hwf, h, Γ => by
    have ht := le_rename t s
    have hc := le_rename c (t.rename s).2
    rw [rename, nameless, nameless_rename s hwf.2.1 h.2.1,
      nameless_rename _ hwf.2.2.1 (h.2.2.1.imp (NodeNames.covers ht)),
      nameless_rename _ hwf.2.2.2 (h.2.2.2.imp (NodeNames.covers (ht.trans hc))), nameless]
  | .app f es, s, hwf, h, Γ => by
    have hes := EveryAll.imp (NodeNames.covers (le_rename f s)) h.2.2
    rw [rename, nameless, nameless_rename s hwf.2.1 h.2.1, namelessEach_renameAll _ hwf.2.2 hes,
      nameless]
  | .define x e, s, hwf, h, Γ => by
    rw [rename, nameless, nameless_rename s hwf.2 h.2, nameless]
  | .dict es, s, hwf, h, Γ => by
    rw [rename, nameless, keys_renameEntries, namelessEntries_rename s hwf.2 h.2, nameless]
  | .var _, _, _, _, _ | .number _, _, _, _, _ | .boolean _, _, _, _, _ | .string _, _, _, _, _
  | .prim _, _, _, _, _ | .quote _, _, _, _, _ | .foreign _, _, _, _, _ => rfl

/-- **Without names a sequence is what it is renamed to.** -/
theorem namelessSeq_renameAll : ∀ {es : List Expr} (s : NameSupply), EveryAll NodeWellFormed es →
    EveryAll (NodeNames s.Covers) es → ∀ Γ : Context,
      namelessSeq Γ (renameAll es s).1 = namelessSeq Γ es
  | [], _, _, _, _ => rfl
  | e :: es, s, hwf, h, Γ => by
    have hes := EveryAll.imp (NodeNames.covers (le_rename e s)) h.2
    have hafter : Γ.after (e.rename s).1 = Γ.after e := by cases e <;> rfl
    rw [renameAll, namelessSeq, nameless_rename s hwf.1 h.1, hafter,
      namelessSeq_renameAll _ hwf.2 hes, namelessSeq]

theorem namelessEach_renameAll : ∀ {es : List Expr} (s : NameSupply), EveryAll NodeWellFormed es →
    EveryAll (NodeNames s.Covers) es → ∀ Γ : Context,
      namelessEach Γ (renameAll es s).1 = namelessEach Γ es
  | [], _, _, _, _ => rfl
  | e :: es, s, hwf, h, Γ => by
    have hes := EveryAll.imp (NodeNames.covers (le_rename e s)) h.2
    rw [renameAll, namelessEach, nameless_rename s hwf.1 h.1, namelessEach_renameAll _ hwf.2 hes,
      namelessEach]

theorem namelessEntries_rename : ∀ {es : List (String × Expr)} (s : NameSupply),
    EveryEntry NodeWellFormed es → EveryEntry (NodeNames s.Covers) es → ∀ Γ : Context,
      namelessEntries Γ (renameEntries es s).1 = namelessEntries Γ es
  | [], _, _, _, _ => rfl
  | (_, e) :: es, s, hwf, h, Γ => by
    have hes := EveryEntry.imp (NodeNames.covers (le_rename e s)) h.2
    rw [renameEntries, namelessEntries, nameless_rename s hwf.1 h.1,
      namelessEntries_rename _ hwf.2 hes, namelessEntries]

end

end Expr

end Lambdict
