import Lambdict.Proofs.Matching.Renaming

/-!
# The simulation of matching programs

Programs that match run alike.  What relates two runs at a moment is a `World`: which objects
correspond, and the supply of names of either run.  Outside all lambdas only a name that both
supplies have reserved goes with itself; parameters are names that neither supply will give any more
(`World.link`).  If the second program expands the first, parameters go with themselves too until
they are renamed (`NamedAlike`).

A closure is called in three steps, and each keeps what is evaluated matching: renaming draws new
parameters on either side, the literals of matching arguments match
(`Value.Matches.literal?_agree`), and putting them in captures nothing, because they have only
reserved names outside their lambdas and parameters that were just drawn are not reserved
(`World.carries_literals`).
-/

namespace Lambdict

/-- An object that is there when so many have been made. -/
def Identity.Older (n : Nat) : Identity → Prop
  | .given _ => True
  | .made k => k < n

/-- **Names that look alike**: they are the same, or the first has a number that was drawn. -/
def NamedAlike (x y : String) : Prop := x = y ∨ ∃ stem n, x = NameSupply.numbered stem n

/-- Parameters that were drawn look alike, being numbered. -/
theorem NameSupply.DrawnAll.namedAlike {s t : NameSupply} {ps qs : List String}
    (h : s.DrawnAll t ps) (hlen : ps.length = qs.length) : List.Forall₂ NamedAlike ps qs := by
  rw [List.forall₂_iff_zip]
  refine ⟨hlen, fun hmem => .inr ?_⟩
  obtain ⟨stem, n, hx, -⟩ := (h.drawn _ (List.of_mem_zip hmem).1).number
  exact ⟨stem, n, hx⟩

/-- What relates two runs at a moment. -/
structure World where
  same : Identity → Identity → Prop
  /-- The supply of the first run. -/
  left : NameSupply
  /-- The supply of the second run. -/
  right : NameSupply

namespace World

/-- A later moment of two runs. -/
structure Le (W V : World) : Prop where
  same : ∀ i j, W.same i j → V.same i j
  left : W.left.Le V.left
  right : W.right.Le V.right

theorem Le.refl (W : World) : W.Le W := ⟨fun _ _ h => h, .refl _, .refl _⟩

/-- A world later than a later one is later. -/
theorem Le.trans {W V U : World} (h₁ : W.Le V) (h₂ : V.Le U) : W.Le U :=
  ⟨fun i j h => h₂.same i j (h₁.same i j h), h₁.left.trans h₂.left, h₁.right.trans h₂.right⟩

/-- How the expressions of two runs match at a moment.  An expansion keeps the names of its
program. -/
def link (expands : Prop) (W : World) : Link where
  expands := expands
  same := W.same
  defines x := x ∈ W.left.reserved ∧ x ∈ W.right.reserved
  base := {
    names := fun x y => x = y ∧ x ∈ W.left.reserved ∧ x ∈ W.right.reserved
    params := fun ps qs => ps.length = qs.length ∧ W.left.Sound ps ∧ W.right.Sound qs ∧
      (expands → List.Forall₂ NamedAlike ps qs)
    added := W.right.Sound }

variable {expands : Prop} {W V : World}

/-- What matches in a world matches in a later one. -/
theorem Le.link (h : W.Le V) : (W.link expands).Le (V.link expands) where
  expands := .rfl
  same := h.same
  defines x := fun ⟨hx, hx'⟩ => ⟨h.left.reserved x hx, h.right.reserved x hx'⟩
  base := {
    names := fun x _ ⟨he, hx, hx'⟩ => ⟨he, h.left.reserved x hx, h.right.reserved x hx'⟩
    params := fun _ _ ⟨hl, hp, hq, hn⟩ => ⟨hl, hp.mono h.left, hq.mono h.right, hn⟩
    added := fun _ hp => hp.mono h.right }

/-- A name that may be defined is paired with itself. -/
theorem names_of_defines (expands : Prop) (W : World) (z : String)
    (h : (W.link expands).defines z) : (W.link expands).base.names z z :=
  ⟨rfl, h⟩

/-- The supplies of a moment serve the scope outside all lambdas. -/
theorem served (expands : Prop) (W : World) :
    (W.link expands).base.Served (W.link expands) W.left W.right where
  names := by
    rintro x _ ⟨rfl, hx, hx'⟩
    exact ⟨.inl hx, .inl hx'⟩
  params _ _ := fun ⟨hl, hp, hq, _⟩ => ⟨hl, hp, hq⟩
  added _ h := h
  defines _ h := h

/-- The stores of two runs at a moment: corresponding objects are there, and correspond one to
one.  The two runs may draw different numbers, so neither is held to the digit limit. -/
structure Fits (W : World) (s s' : Store) : Prop where
  left : s.names = W.left
  right : s'.names = W.right
  older : ∀ i j, W.same i j → i.Older s.made ∧ j.Older s'.made
  one_to_one : ∀ i j i' j', W.same i j → W.same i' j' → (i = i' ↔ j = j')
  unlimited : s.limited = false ∧ s'.limited = false

/-- An object that is older than another is older than those that come after. -/
theorem Older.mono {i : Identity} {m n : Nat} (h : m ≤ n) (hi : i.Older m) : i.Older n := by
  cases i with
  | given => trivial
  | made k => exact Nat.lt_of_lt_of_le hi h

theorem Fits.next_left {s s' : Store} (h : W.Fits s s') : W.Fits s.next s' :=
  ⟨h.left, h.right, fun i j hij => ⟨Older.mono (Nat.le_succ _) (h.older i j hij).1,
    (h.older i j hij).2⟩, h.one_to_one, h.unlimited⟩

theorem Fits.next_right {s s' : Store} (h : W.Fits s s') : W.Fits s s'.next :=
  ⟨h.left, h.right, fun i j hij => ⟨(h.older i j hij).1,
    Older.mono (Nat.le_succ _) (h.older i j hij).2⟩, h.one_to_one, h.unlimited⟩

/-- The moment after both runs made an object. -/
def next (W : World) (s s' : Store) : World :=
  { W with same := fun i j => W.same i j ∨ (i = .made s.made ∧ j = .made s'.made) }

/-- An object that both runs make at once becomes one object in the next world. -/
theorem Fits.next {s s' : Store} (h : W.Fits s s') : (W.next s s').Fits s.next s'.next := by
  have hnew {i j : Identity} (hij : W.same i j) : i ≠ .made s.made ∧ j ≠ .made s'.made := by
    -- what corresponds already was there before, on both sides
    obtain ⟨hi, hj⟩ := h.older i j hij
    refine ⟨?_, ?_⟩
    · rintro rfl
      exact Nat.lt_irrefl _ hi
    · rintro rfl
      exact Nat.lt_irrefl _ hj
  refine ⟨h.left, h.right, ?_, ?_, h.unlimited⟩
  · rintro i j (hij | ⟨rfl, rfl⟩)
    · exact h.next_left.next_right.older i j hij
    · exact ⟨Nat.lt_succ_self _, Nat.lt_succ_self _⟩
  · rintro i j i' j' (hij | ⟨rfl, rfl⟩) (hij' | ⟨rfl, rfl⟩)
    · exact h.one_to_one i j i' j' hij hij'
    · exact iff_of_false (hnew hij).1 (hnew hij).2
    · exact iff_of_false (hnew hij').1.symm (hnew hij').2.symm
    · exact iff_of_true rfl rfl

end World

/-! ## Literals -/

/-- A lambda is refused only for want of a body, if its parameters are sound and its body is one. -/
theorem Expr.lambda?_of_sound {s : NameSupply} {ps : List String} (hp : s.Sound ps) {b : List Expr}
    (hb : b.find? (!·.isProper) = none) : Expr.lambda? ps b =
      if b.isEmpty then .error (.emptyBody .lambda) else .ok (.lambda ps b) := by
  have hempty : ps.any String.isEmpty = false := by
    simp only [List.any_eq_false, String.isEmpty_iff]
    exact fun x hx hxe => hp.nonempty (hxe ▸ hx)
  simp only [Expr.lambda?, checkParameters, hempty, hp.nodup, hb]
  cases b.isEmpty <;> rfl

/-- Two expressions that can be put in for names that correspond. -/
def InsertRel (L : Link) (Λ : Scope) (e e' : Expr) : Prop :=
  e.Matches L Λ e' ∧ Substitution.Insertable e

variable {expands : Prop} {W : World}

/-- **The literals of matching values match**, or both values have none. -/
theorem Value.Matches.literal?_agree {v v' : Value} (h : v.Matches (W.link expands) v') :
    Agree (InsertRel (W.link expands) (W.link expands).base) (v.literal?.mapError .condition)
      (v'.literal?.mapError .condition) := by
  cases h with
  | plain hv =>
    cases v with
    | number n => exact .ok ⟨.number n, trivial⟩
    | boolean b => exact .ok ⟨.boolean b, trivial⟩
    | string s => exact .ok ⟨.string s, trivial⟩
    | prim p => exact .ok ⟨.prim p, trivial⟩
    | symbol x => exact .ok ⟨.quote (.plain rfl), trivial⟩
    | empty => exact .ok ⟨.quote (.plain rfl), trivial⟩
    | nothing => exact .error (.refl _)
    | pair | closure | dict | code | sequence => cases hv
  | pair hi hh ht => exact .ok ⟨.quote (.pair hi hh ht), trivial⟩
  | closure hi hp hb =>
    -- what the checks of a lambda ask for holds on both sides, but for a body
    obtain ⟨hproper, hproper'⟩ := hb.find?_proper
    simp only [Value.literal?, Expr.lambda?_of_sound hp.2.1 hproper,
      Expr.lambda?_of_sound hp.2.2.1 hproper', hb.isEmpty_eq]
    split
    · exact .error (.refl _)
    · exact .ok ⟨.lambda hp hb, trivial⟩
  | dict => exact .error (.refl _)

/-- **Matching arguments have matching literals**, or fail alike. -/
theorem literals?_agree {vs vs' : List Value}
    (h : List.Forall₂ (Value.Matches (W.link expands)) vs vs') :
    Agree (List.Forall₂ (InsertRel (W.link expands) (W.link expands).base))
      ((Value.literals? vs).mapError .condition) ((Value.literals? vs').mapError .condition) := by
  induction h with
  | nil => exact .ok .nil
  | @cons v v' vs vs' hv _ ih =>
    have hhead := hv.literal?_agree
    simp only [Value.literals?]
    cases hl : v.literal? <;> cases hl' : v'.literal? <;> rw [hl, hl'] at hhead <;> cases hhead
    · next he => exact .error he
    · next he =>
      cases hls : Value.literals? vs <;> cases hls' : Value.literals? vs' <;>
        rw [hls, hls'] at ih <;> cases ih
      · next hes => exact .error hes
      · next hes => exact .ok (.cons he hes)

/-- Literals are taken one by one. -/
theorem forall₂_literals? {vs : List Value} {es : List Expr} (h : Value.literals? vs = .ok es) :
    List.Forall₂ (fun v e => v.literal? = .ok e) vs es := by
  induction vs generalizing es with
  | nil =>
    cases h
    exact .nil
  | cons v vs ih =>
    simp only [Value.literals?] at h
    cases hv : v.literal? with
    | error c =>
      rw [hv] at h
      cases h
    | ok e =>
      cases hvs : Value.literals? vs with
      | error c =>
        rw [hv, hvs] at h
        cases h
      | ok es' =>
        rw [hv, hvs] at h
        cases h
        exact .cons hv (ih hvs)

/-- There are as many literals as arguments. -/
theorem length_literals? {vs : List Value} {es : List Expr} (h : Value.literals? vs = .ok es) :
    es.length = vs.length :=
  (forall₂_literals? h).length_eq.symm

/-! ## The call of a closure -/

namespace World

/-- The moment after both runs renamed a body. -/
def afterRenaming (W : World) (b b' : List Expr) : World :=
  { W with left := (Expr.renameAll b W.left).2, right := (Expr.renameAll b' W.right).2 }

theorem le_afterRenaming (W : World) (b b' : List Expr) : W.Le (W.afterRenaming b b') :=
  ⟨fun _ _ h => h, Expr.le_renameAll b _, Expr.le_renameAll b' _⟩

/-- After renaming both runs are in a later world, with the names drawn. -/
theorem Fits.afterRenaming {s s' : Store} (h : W.Fits s s') (b b' : List Expr) :
    (W.afterRenaming b b').Fits (s.renaming b) (s'.renaming b') := by
  refine ⟨?_, ?_, h.older, h.one_to_one, h.unlimited⟩
  · simp only [Store.renaming, World.afterRenaming, h.left]
  · simp only [Store.renaming, World.afterRenaming, h.right]

/-- **Literals can be put in for the parameters of a renamed body.**  The names they have outside
their lambdas are reserved, and the parameters in the body were just drawn. -/
theorem carries_literals {V : World} (h : W.Le V) {ps qs : List String} {es es' : List Expr}
    (hp : (W.link expands).base.params ps qs)
    (hes : List.Forall₂ (InsertRel (W.link expands) (W.link expands).base) es es')
    (hlen : es.length = ps.length) :
    Substitution.Carries (V.link expands) (W.link expands).base
      (((W.link expands).base.bind ps qs).drawn W.left V.left W.right V.right)
      (V.link expands).base (.ofLists ps es) (.ofLists qs es') where
  names := by
    rintro x y (hmem | ⟨hx, hy, hxy⟩)
    · -- a parameter is replaced by the literal of its argument, and no other name is
      obtain ⟨e, e', he, he', hm, hi⟩ := Substitution.find?_ofLists_of_mem hes hlen hp.1
        hp.2.1.nodup hp.2.2.1.nodup hmem
      exact .inl ⟨e, e', he, he', hm.mono h.link (.refl _), hi⟩
    · exact .inr ⟨Substitution.find?_ofLists_of_not_mem hx _,
        Substitution.find?_ofLists_of_not_mem hy _, h.link.base.names x y hxy⟩
  put := h.link.base
  params _ _ := fun ⟨hl, hps, hqs⟩ => ⟨hl, hps.sound, hqs.sound, fun _ => hps.namedAlike hl⟩
  added _ hps := hps.sound
  apart := by
    -- the literals have reserved names free, and drawn names are not reserved
    rintro ps' qs' ⟨-, hps, hqs⟩ x _ ⟨rfl, hx, hx'⟩
    exact ⟨fun hm => (hps.drawn x hm).fresh hx, fun hm => (hqs.drawn x hm).fresh hx'⟩
  defined := by
    rintro z - x _ ⟨rfl, -, -⟩
    exact .rfl

/-- Closures that correspond at a moment. -/
def ClosureRel (expands : Prop) (W : World) (ps : List String) (b : List Expr) (qs : List String)
    (b' : List Expr) : Prop :=
  (W.link expands).base.params ps qs ∧
    Expr.MatchesSeq (W.link expands) ((W.link expands).base.bind ps qs) b b'

/-- **What the call of a closure evaluates still matches.** -/
theorem call {ps qs : List String} {b b' : List Expr} {s s' : Store} {args args' : List Value}
    (hc : ClosureRel expands W ps b qs b') (hs : W.Fits s s')
    (hargs : List.Forall₂ (Value.Matches (W.link expands)) args args')
    (hlen : args.length = ps.length) :
    Agree (fun es es' => List.Forall₂
        (Expr.Matches ((W.afterRenaming b b').link expands)
          ((W.afterRenaming b b').link expands).base)
        (Expr.substSeq (.ofLists ps es) (Expr.renameAll b s.names).1)
        (Expr.substSeq (.ofLists qs es') (Expr.renameAll b' s'.names).1))
      ((Value.literals? args).mapError .condition)
      ((Value.literals? args').mapError .condition) := by
  obtain ⟨hp, hb⟩ := hc
  have hle := W.le_afterRenaming b b'
  rw [hs.left, hs.right]
  have hrenamed := (hb.rename ((W.served expands).bind hp.2.1.covers hp.2.2.1.covers)).mono hle.link
    (.refl _)
  have hliterals := literals?_agree hargs
  cases hl : Value.literals? args <;> cases hl' : Value.literals? args' <;>
    rw [hl, hl'] at hliterals <;> cases hliterals
  · next he => exact .error he
  · next hes =>
    have hcarries := carries_literals hle hp hes ((length_literals? hl).trans hlen)
    exact .ok ((hrenamed.subst hcarries).forall₂ (names_of_defines expands _))

end World

/-! ## The simulation -/

/-- A value matches by its surface and by what is inside. -/
theorem Value.matches_iff_layer {v v' : Value} : v.Matches (W.link expands) v' ↔
    Value.Layer False (Value.Matches (W.link expands)) W.same (W.ClosureRel expands) v v' := by
  constructor
  · intro h
    cases h with
    | plain hv => exact .plain hv
    | pair hi hh ht => exact .pair hi hh ht
    | closure hi hp hb => exact .closure hi ⟨hp, hb⟩
    | dict hi hk hv => exact .dict hi (forall₂_entryRel_iff.2 ⟨hk, Value.matchesAll_iff.1 hv⟩)
  · intro h
    cases h with
    | plain hv => exact .plain hv
    | pair hi hh ht => exact .pair hi hh ht
    | closure hi hc => exact .closure hi hc.1 hc.2
    | dict hi hes =>
      obtain ⟨hk, hv⟩ := forall₂_entryRel_iff.1 hes
      exact .dict hi hk (Value.matchesAll_iff.2 hv)
    | code _ ho => exact ho.elim
    | sequence _ ho => exact ho.elim

/-- Matching expressions have one shape, but for literals that are expanded. -/
theorem Expr.Matches.layer {e e' : Expr}
    (h : e.Matches (W.link expands) (W.link expands).base e') :
    Expr.Layer expands (Expr.Matches (W.link expands) (W.link expands).base)
      (Value.Matches (W.link expands)) (W.ClosureRel expands) e e' := by
  cases h with
  | number n => exact .number n
  | boolean b => exact .boolean b
  | string s => exact .string s
  | prim p => exact .prim p
  | var hxy =>
    obtain ⟨rfl, -, -⟩ := hxy
    exact .var _
  | cond ht hc ha => exact .cond ht hc ha
  | lambda hp hb => exact .lambda ⟨hp, hb⟩
  | app _ hf hes => exact .app hf (Expr.matchesEach_iff.1 hes)
  | define _ he => exact .define _ he
  | quote hd => exact .quote hd
  | dict _ hk hv => exact .dict (forall₂_entryRel_iff.2 ⟨hk, Expr.matchesEach_iff.1 hv⟩)
  | construct _ hv => exact .construct (forall₂_pairCallRel (Expr.matchesEach_iff.1 hv))
  | search hs hv hk ha ha' =>
    exact .search hs (forall₂_pairCallRel (Expr.matchesEach_iff.1 hv)) hk ⟨ha.nodup, ha.nonempty⟩
      ⟨ha'.nodup, ha'.nonempty⟩

/-- **The simulation of matching programs.** -/
def matching (expands : Prop) : Simulation where
  World := World
  le := World.Le
  fits := World.Fits
  same := World.same
  value W := Value.Matches (W.link expands)
  closure := World.ClosureRel expands
  expr W := Expr.Matches (W.link expands) (W.link expands).base
  searches := expands
  outer := False
  le_refl := World.Le.refl
  le_trans := World.Le.trans
  value_mono h hv := hv.mono h.link
  closure_mono h hc := ⟨h.link.base.params _ _ hc.1, hc.2.mono h.link (h.link.base.bind _ _)⟩
  expr_mono h he := he.mono h.link h.link.base
  one_to_one h hij hij' := h.one_to_one _ _ _ _ hij hij'
  next h := ⟨World.next _ _ _, ⟨fun _ _ => .inl, .refl _, .refl _⟩, h.next, .inr ⟨rfl, rfl⟩⟩
  next_left _ _ _ _ h := h.next_left
  next_right _ _ _ _ h := h.next_right
  value_iff := Value.matches_iff_layer
  writable_eq h := h.writable_eq
  expr_cases h := h.layer
  arity_eq h := h.1.1
  admits_iff _ h := iff_of_true (Store.admits_of_unlimited h.unlimited.1 _)
    (Store.admits_of_unlimited h.unlimited.2 _)
  call hc hs hargs hlen :=
    ⟨_, World.le_afterRenaming _ _ _, hs.afterRenaming _ _, World.call hc hs hargs hlen⟩

end Lambdict
