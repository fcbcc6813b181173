import Lambdict.Proofs.Simulation.Basic

/-!
# Expressions that match up to the names of parameters

Two expressions *match* when they differ only in the names of lambda parameters, consistently and
without capture.  Which names go together at a place is a relation, a `Pairing`.  A lambda pairs its
parameters in order and hides whatever they hide (`Pairing.bind`); a definition pairs its name with
itself for the rest of its sequence (`Pairing.after`), since defined names are never renamed.
Closures that are held in quoted data match likewise.

The relation comes in several strengths, and these are set in two places.  A `Link` is fixed all
through: it says which objects correspond, which names may be defined, and whether the second
expression expands the dictionary literals of the first into calls and searches.  A `Scope` belongs
to a place: besides the pairing it says what parameters there may look like.  Renaming a body
changes the scope and nothing else.
-/

namespace Lambdict

/-- Which names of a first expression go with which of a second. -/
abbrev Pairing := String → String → Prop

namespace Pairing

/-- The pairing under two binders: their names are paired in order, and hide what they hide. -/
def bind (ps qs : List String) (ρ : Pairing) : Pairing := fun x y =>
  (x, y) ∈ ps.zip qs ∨ (x ∉ ps ∧ y ∉ qs ∧ ρ x y)

/-- The pairing after an element of a sequence. -/
def after (ρ : Pairing) : Expr → Pairing
  | .define x _ => ρ.bind [x] [x]
  | _ => ρ

/-- More pairs of names may go together in an inner scope if more do in the outer one. -/
theorem bind_mono {ρ τ : Pairing} (h : ∀ x y, ρ x y → τ x y) {ps qs : List String} {x y : String} :
    ρ.bind ps qs x y → τ.bind ps qs x y :=
  Or.imp_right fun ⟨hx, hy, hxy⟩ => ⟨hx, hy, h x y hxy⟩

/-- To bind a name that goes with itself adds nothing. -/
theorem bind_self {ρ : Pairing} {z x y : String} (hz : ρ z z) : ρ.bind [z] [z] x y → ρ x y := by
  rintro (h | ⟨-, -, h⟩)
  · obtain ⟨rfl, rfl⟩ : x = z ∧ y = z := by simpa using h
    exact hz
  · exact h

end Pairing

/-- What is known of the names at a place. -/
structure Scope where
  names : Pairing
  /-- What the parameters of two lambdas look like there. -/
  params : List String → List String → Prop
  /-- What the parameters look like of a lambda that only the second expression has. -/
  added : List String → Prop

namespace Scope

/-- The scope under two binders. -/
def bind (Γ : Scope) (ps qs : List String) : Scope :=
  { Γ with names := Γ.names.bind ps qs }

/-- The scope after an element of a sequence. -/
def after (Γ : Scope) (e : Expr) : Scope :=
  { Γ with names := Γ.names.after e }

/-- A scope that admits more. -/
structure Le (Γ Δ : Scope) : Prop where
  names : ∀ x y, Γ.names x y → Δ.names x y
  params : ∀ ps qs, Γ.params ps qs → Δ.params ps qs
  added : ∀ ps, Γ.added ps → Δ.added ps

@[refl]
theorem Le.refl (Γ : Scope) : Γ.Le Γ := ⟨fun _ _ h => h, fun _ _ h => h, fun _ h => h⟩

/-- A larger scope stays larger inside a lambda. -/
theorem Le.bind {Γ Δ : Scope} (h : Γ.Le Δ) (ps qs : List String) :
    (Γ.bind ps qs).Le (Δ.bind ps qs) :=
  ⟨fun _ _ => Pairing.bind_mono h.names, h.params, h.added⟩

/-- A larger scope stays larger after an element of a sequence. -/
theorem Le.after {Γ Δ : Scope} (h : Γ.Le Δ) (e : Expr) : (Γ.after e).Le (Δ.after e) := by
  cases e with
  | define x e => exact h.bind [x] [x]
  | _ => exact h

end Scope

/-- What is known of two expressions all through. -/
structure Link where
  /-- Whether the second expression expands the dictionary literals of the first. -/
  expands : Prop
  same : Identity → Identity → Prop
  /-- The names that may be defined. -/
  defines : String → Prop
  /-- The scope outside all lambdas. -/
  base : Scope

/-- A link that admits more. -/
structure Link.Le (L M : Link) : Prop where
  expands : L.expands ↔ M.expands
  same : ∀ i j, L.same i j → M.same i j
  defines : ∀ x, L.defines x → M.defines x
  base : L.base.Le M.base

@[refl]
theorem Link.Le.refl (L : Link) : L.Le L := ⟨.rfl, fun _ _ h => h, fun _ h => h, .refl _⟩

mutual

/-- **Matching expressions.** -/
inductive Expr.Matches (L : Link) : Scope → Expr → Expr → Prop
  | number {Γ : Scope} (n : Number) : Expr.Matches L Γ (.number n) (.number n)
  | boolean {Γ : Scope} (b : Bool) : Expr.Matches L Γ (.boolean b) (.boolean b)
  | string {Γ : Scope} (s : String) : Expr.Matches L Γ (.string s) (.string s)
  | prim {Γ : Scope} (p : Primitive) : Expr.Matches L Γ (.prim p) (.prim p)
  | var {Γ : Scope} {x y : String} (h : Γ.names x y) : Expr.Matches L Γ (.var x) (.var y)
  | cond {Γ : Scope} {t t' c c' a a' : Expr} (ht : Expr.Matches L Γ t t')
      (hc : Expr.Matches L Γ c c') (ha : Expr.Matches L Γ a a') :
      Expr.Matches L Γ (.cond t c a) (.cond t' c' a')
  | lambda {Γ : Scope} {ps qs : List String} {b b' : List Expr} (hp : Γ.params ps qs)
      (hb : Expr.MatchesSeq L (Γ.bind ps qs) b b') :
      Expr.Matches L Γ (.lambda ps b) (.lambda qs b')
  /-- Where literals are expanded, one that is applied to a key is no plain application. -/
  | app {Γ : Scope} {f f' : Expr} {es es' : List Expr}
      (hn : L.expands → ∀ ds key, f = .dict ds → es ≠ [key]) (hf : Expr.Matches L Γ f f')
      (hes : Expr.MatchesEach L Γ es es') : Expr.Matches L Γ (.app f es) (.app f' es')
  | define {Γ : Scope} {x : String} {e e' : Expr} (hx : L.defines x) (he : Expr.Matches L Γ e e') :
      Expr.Matches L Γ (.define x e) (.define x e')
  | quote {Γ : Scope} {d d' : Value} (hd : Value.Matches L d d') :
      Expr.Matches L Γ (.quote d) (.quote d')
  | dict {Γ : Scope} {es es' : List (String × Expr)} (hn : ¬ L.expands)
      (hk : es.map Prod.fst = es'.map Prod.fst)
      (hv : Expr.MatchesEach L Γ (es.map Prod.snd) (es'.map Prod.snd)) :
      Expr.Matches L Γ (.dict es) (.dict es')
  | construct {Γ : Scope} {es : List (String × Expr)} {vs : List Expr} (hs : L.expands)
      (hv : Expr.MatchesEach L Γ (es.map Prod.snd) vs) :
      Expr.Matches L Γ (.dict es)
        (Desugar.call .dict (List.zipWith Desugar.pairCall (es.map Prod.fst) vs))
  | search {Γ : Scope} {es : List (String × Expr)} {vs : List Expr} {key key' : Expr}
      {a b c a' b' c' : String} (hs : L.expands)
      (hv : Expr.MatchesEach L Γ (es.map Prod.snd) vs) (hk : Expr.Matches L Γ key key')
      (ha : Γ.added [a, b, c]) (ha' : Γ.added [a', b', c']) :
      Expr.Matches L Γ (.app (.dict es) [key])
        (Desugar.searchBy (Desugar.scannerOf a b c) (Desugar.scannerOf a' b' c')
          (List.zipWith Desugar.pairCall (es.map Prod.fst) vs) key')

/-- Matching sequences, in which a definition counts for the rest. -/
inductive Expr.MatchesSeq (L : Link) : Scope → List Expr → List Expr → Prop
  | nil {Γ : Scope} : Expr.MatchesSeq L Γ [] []
  | cons {Γ : Scope} {e e' : Expr} {es es' : List Expr} (he : Expr.Matches L Γ e e')
      (hes : Expr.MatchesSeq L (Γ.after e) es es') : Expr.MatchesSeq L Γ (e :: es) (e' :: es')

/-- Expressions that match one by one. -/
inductive Expr.MatchesEach (L : Link) : Scope → List Expr → List Expr → Prop
  | nil {Γ : Scope} : Expr.MatchesEach L Γ [] []
  | cons {Γ : Scope} {e e' : Expr} {es es' : List Expr} (he : Expr.Matches L Γ e e')
      (hes : Expr.MatchesEach L Γ es es') : Expr.MatchesEach L Γ (e :: es) (e' :: es')

/-- **Matching values.** -/
inductive Value.Matches (L : Link) : Value → Value → Prop
  | plain {v : Value} (h : v.identity? = none) : Value.Matches L v v
  | pair {i j : Identity} {h h' t t' : Value} (hi : L.same i j) (hh : Value.Matches L h h')
      (ht : Value.Matches L t t') : Value.Matches L (.pair i h t) (.pair j h' t')
  | closure {i j : Identity} {ps qs : List String} {b b' : List Expr} (hi : L.same i j)
      (hp : L.base.params ps qs) (hb : Expr.MatchesSeq L (L.base.bind ps qs) b b') :
      Value.Matches L (.closure i ps b) (.closure j qs b')
  | dict {i j : Identity} {es es' : List (String × Value)} (hi : L.same i j)
      (hk : es.map Prod.fst = es'.map Prod.fst)
      (hv : Value.MatchesAll L (es.map Prod.snd) (es'.map Prod.snd)) :
      Value.Matches L (.dict i es) (.dict j es')

/-- Values that match one by one. -/
inductive Value.MatchesAll (L : Link) : List Value → List Value → Prop
  | nil : Value.MatchesAll L [] []
  | cons {v v' : Value} {vs vs' : List Value} (hv : Value.Matches L v v')
      (hvs : Value.MatchesAll L vs vs') : Value.MatchesAll L (v :: vs) (v' :: vs')

end

/-! ## Strength -/

mutual

/-- **Expressions that match go on to match** when more names go together. -/
theorem Expr.Matches.mono {L M : Link} (hL : L.Le M) {Γ Δ : Scope} (h : Γ.Le Δ) {e e' : Expr} :
    e.Matches L Γ e' → e.Matches M Δ e'
  | .number n => .number n
  | .boolean b => .boolean b
  | .string s => .string s
  | .prim p => .prim p
  | .var hx => .var (h.names _ _ hx)
  | .cond ht hc ha => .cond (ht.mono hL h) (hc.mono hL h) (ha.mono hL h)
  | .lambda hp hb => .lambda (h.params _ _ hp) (hb.mono hL (h.bind _ _))
  | .app hn hf hes => .app (fun hs => hn (hL.expands.2 hs)) (hf.mono hL h) (hes.mono hL h)
  | .define hx he => .define (hL.defines _ hx) (he.mono hL h)
  | .quote hd => .quote (hd.mono hL)
  | .dict hn hk hv => .dict (fun hs => hn (hL.expands.2 hs)) hk (hv.mono hL h)
  | .construct hs hv => .construct (hL.expands.1 hs) (hv.mono hL h)
  | .search hs hv hk ha ha' =>
    .search (hL.expands.1 hs) (hv.mono hL h) (hk.mono hL h) (h.added _ ha) (h.added _ ha')

theorem Expr.MatchesSeq.mono {L M : Link} (hL : L.Le M) {Γ Δ : Scope} (h : Γ.Le Δ)
    {es es' : List Expr} : Expr.MatchesSeq L Γ es es' → Expr.MatchesSeq M Δ es es'
  | .nil => .nil
  | .cons he hes => .cons (he.mono hL h) (hes.mono hL (h.after _))

theorem Expr.MatchesEach.mono {L M : Link} (hL : L.Le M) {Γ Δ : Scope} (h : Γ.Le Δ)
    {es es' : List Expr} : Expr.MatchesEach L Γ es es' → Expr.MatchesEach M Δ es es'
  | .nil => .nil
  | .cons he hes => .cons (he.mono hL h) (hes.mono hL h)

/-- Values that match go on to match when the link grows. -/
theorem Value.Matches.mono {L M : Link} (hL : L.Le M) {v v' : Value} :
    v.Matches L v' → v.Matches M v'
  | .plain h => .plain h
  | .pair hi hh ht => .pair (hL.same _ _ hi) (hh.mono hL) (ht.mono hL)
  | .closure hi hp hb =>
    .closure (hL.same _ _ hi) (hL.base.params _ _ hp) (hb.mono hL (hL.base.bind _ _))
  | .dict hi hk hv => .dict (hL.same _ _ hi) hk (hv.mono hL)

theorem Value.MatchesAll.mono {L M : Link} (hL : L.Le M) {vs vs' : List Value} :
    Value.MatchesAll L vs vs' → Value.MatchesAll M vs vs'
  | .nil => .nil
  | .cons hv hvs => .cons (hv.mono hL) (hvs.mono hL)

end

/-! ## Lists -/

variable {L : Link} {Γ : Scope}

/-- Arguments match one by one. -/
theorem Expr.matchesEach_iff {es es' : List Expr} :
    Expr.MatchesEach L Γ es es' ↔ List.Forall₂ (Expr.Matches L Γ) es es' := by
  induction es generalizing es' with
  | nil =>
    rw [List.forall₂_nil_left_iff]
    constructor
    · rintro ⟨⟩
      rfl
    · rintro rfl
      exact .nil
  | cons e es ih =>
    rw [List.forall₂_cons_left_iff]
    constructor
    · rintro (_ | ⟨he, hes⟩)
      exact ⟨_, _, he, ih.1 hes, rfl⟩
    · rintro ⟨e', es', he, hes, rfl⟩
      exact .cons he (ih.2 hes)

/-- The members of a value match one by one. -/
theorem Value.matchesAll_iff {vs vs' : List Value} :
    Value.MatchesAll L vs vs' ↔ List.Forall₂ (Value.Matches L) vs vs' := by
  induction vs generalizing vs' with
  | nil =>
    rw [List.forall₂_nil_left_iff]
    constructor
    · rintro ⟨⟩
      rfl
    · rintro rfl
      exact .nil
  | cons v vs ih =>
    rw [List.forall₂_cons_left_iff]
    constructor
    · rintro (_ | ⟨hv, hvs⟩)
      exact ⟨_, _, hv, ih.1 hvs, rfl⟩
    · rintro ⟨v', vs', hv, hvs, rfl⟩
      exact .cons hv (ih.2 hvs)

/-- Entries correspond when their keys are the same and their values do. -/
theorem forall₂_entryRel_iff {α β : Type} {R : α → β → Prop} {es : List (String × α)}
    {es' : List (String × β)} : List.Forall₂ (EntryRel R) es es' ↔
      es.map Prod.fst = es'.map Prod.fst ∧
        List.Forall₂ R (es.map Prod.snd) (es'.map Prod.snd) := by
  induction es generalizing es' with
  | nil => cases es' <;> simp
  | cons p es ih =>
    cases es' with
    | nil => simp
    | cons q es' =>
      simp only [List.forall₂_cons, List.map_cons, List.cons.injEq, ih, EntryRel]
      constructor
      · rintro ⟨⟨hk, hv⟩, hks, hvs⟩
        exact ⟨⟨hk, hks⟩, hv, hvs⟩
      · rintro ⟨⟨hk, hks⟩, hv, hvs⟩
        exact ⟨⟨hk, hv⟩, hks, hvs⟩

/-- Related values make related entries of an expanded literal. -/
theorem forall₂_pairCallRel {E : Expr → Expr → Prop} {es : List (String × Expr)} {vs : List Expr}
    (h : List.Forall₂ E (es.map Prod.snd) vs) :
    List.Forall₂ (PairCallRel E) es (List.zipWith Desugar.pairCall (es.map Prod.fst) vs) := by
  induction es generalizing vs with
  | nil => exact .nil
  | cons p es ih =>
    obtain ⟨v, vs, hv, hvs, rfl⟩ := List.forall₂_cons_left_iff.1 h
    exact .cons ⟨v, rfl, hv⟩ (ih hvs)

/-- In a scope where every name that may be defined is paired with itself, the elements of a
sequence match one by one. -/
theorem Expr.MatchesSeq.forall₂ (h : ∀ z, L.defines z → Γ.names z z) {es es' : List Expr}
    (hes : Expr.MatchesSeq L Γ es es') : List.Forall₂ (Expr.Matches L Γ) es es' := by
  induction es generalizing es' with
  | nil =>
    cases hes
    exact .nil
  | cons e es ih =>
    cases hes with
    | cons he hes =>
      refine .cons he (ih (hes.mono (.refl L) ?_))
      cases he with
      | define hx he => exact ⟨fun _ _ => Pairing.bind_self (h _ hx), fun _ _ h => h, fun _ h => h⟩
      | _ => exact .refl Γ

/-! ## What matching keeps -/

/-- Only the empty sequence matches the empty sequence. -/
theorem Expr.MatchesSeq.isEmpty_eq {es es' : List Expr} (h : Expr.MatchesSeq L Γ es es') :
    es.isEmpty = es'.isEmpty := by
  cases h <;> rfl

/-- What matches is an expression on either side. -/
theorem Expr.Matches.isProper {e e' : Expr} (h : e.Matches L Γ e') :
    e.isProper = true ∧ e'.isProper = true := by
  cases h <;> exact ⟨rfl, rfl⟩

/-- Sequences that match have nothing but expressions in them. -/
theorem Expr.MatchesSeq.find?_proper {es es' : List Expr} (h : Expr.MatchesSeq L Γ es es') :
    es.find? (!·.isProper) = none ∧ es'.find? (!·.isProper) = none := by
  induction es generalizing Γ es' with
  | nil =>
    cases h
    exact ⟨rfl, rfl⟩
  | cons e es ih =>
    cases h with
    | cons he hes =>
      obtain ⟨hp, hp'⟩ := he.isProper
      obtain ⟨hr, hr'⟩ := ih hes
      simp only [List.find?_cons, hp, hp', Bool.not_true, hr, hr', and_self]

namespace Expr

/-- A literal can be written out if the values of its entries can. -/
theorem writableEntries_eq (es : List (String × Expr)) :
    writableEntries es = writableAll (es.map Prod.snd) := by
  induction es with
  | nil => rfl
  | cons p es ih => simp only [writableEntries, writableAll, List.map_cons, ih]

/-- An expanded literal can be written out if its values can, since keys always can. -/
theorem writableAll_pairCalls {ks : List String} {vs : List Expr} (h : ks.length = vs.length) :
    writableAll (List.zipWith Desugar.pairCall ks vs) = writableAll vs := by
  induction ks generalizing vs with
  | nil =>
    cases vs with
    | nil => rfl
    | cons => cases h
  | cons k ks ih =>
    cases vs with
    | nil => cases h
    | cons v vs =>
      simp [writableAll, Desugar.pairCall, Desugar.call, writable, Value.writable,
        ih (Nat.succ.inj h)]

theorem MatchesEach.length_eq {es es' : List Expr} (h : MatchesEach L Γ es es') :
    es.length = es'.length :=
  (matchesEach_iff.1 h).length_eq

end Expr

theorem Value.writableEntries_eq (es : List (String × Value)) :
    Value.writableEntries es = Value.writableAll (es.map Prod.snd) := by
  induction es with
  | nil => rfl
  | cons p es ih => simp only [Value.writableEntries, Value.writableAll, List.map_cons, ih]

mutual

/-- **Expressions that match are written out or refused together**, because they show the same
numbers. -/
theorem Expr.Matches.writable_eq {Γ : Scope} {e e' : Expr} :
    e.Matches L Γ e' → e.writable = e'.writable
  | .number _ | .boolean _ | .string _ | .prim _ => rfl
  | .var _ => rfl
  | .cond ht hc ha => by
    simp only [Expr.writable, ht.writable_eq, hc.writable_eq, ha.writable_eq]
  | .lambda _ hb => by simp only [Expr.writable, hb.writable_eq]
  | .app _ hf hes => by simp only [Expr.writable, hf.writable_eq, hes.writable_eq]
  | .define _ he => by simp only [Expr.writable, he.writable_eq]
  | .quote hd => by simp only [Expr.writable, hd.writable_eq]
  | .dict _ _ hv => by simp only [Expr.writable, Expr.writableEntries_eq, hv.writable_eq]
  | .construct _ hv => by
    have hlen := hv.length_eq
    rw [List.length_map, ← List.length_map (f := Prod.fst)] at hlen
    simp only [Expr.writable, Desugar.call, Expr.writableEntries_eq, hv.writable_eq,
      Expr.writableAll_pairCalls hlen, Bool.true_and]
  | .search _ hv hk _ _ => by
    have hlen := hv.length_eq
    rw [List.length_map, ← List.length_map (f := Prod.fst)] at hlen
    simp only [Expr.writable, Desugar.searchBy, Desugar.scannerOf, Desugar.scan, Desugar.call,
      Expr.writableAll, Expr.writableEntries_eq, hv.writable_eq, hk.writable_eq,
      Expr.writableAll_pairCalls hlen, Bool.true_and, Bool.and_true]

theorem Expr.MatchesSeq.writable_eq {Γ : Scope} {es es' : List Expr} :
    Expr.MatchesSeq L Γ es es' → Expr.writableAll es = Expr.writableAll es'
  | .nil => rfl
  | .cons he hes => by simp only [Expr.writableAll, he.writable_eq, hes.writable_eq]

theorem Expr.MatchesEach.writable_eq {Γ : Scope} {es es' : List Expr} :
    Expr.MatchesEach L Γ es es' → Expr.writableAll es = Expr.writableAll es'
  | .nil => rfl
  | .cons he hes => by simp only [Expr.writableAll, he.writable_eq, hes.writable_eq]

/-- Values that match are written out or refused together. -/
theorem Value.Matches.writable_eq {v v' : Value} :
    v.Matches L v' → v.writable = v'.writable
  | .plain _ => rfl
  | .pair _ hh ht => by simp only [Value.writable, hh.writable_eq, ht.writable_eq]
  | .closure _ _ hb => by simp only [Value.writable, hb.writable_eq]
  | .dict _ _ hv => by simp only [Value.writable, Value.writableEntries_eq, hv.writable_eq]

theorem Value.MatchesAll.writable_eq {vs vs' : List Value} :
    Value.MatchesAll L vs vs' → Value.writableAll vs = Value.writableAll vs'
  | .nil => rfl
  | .cons hv hvs => by simp only [Value.writableAll, hv.writable_eq, hvs.writable_eq]

end

end Lambdict
