import Lambdict.Proofs.Collected
import Lambdict.Proofs.Matching.Start

/-!
# Identifiers

The *identifiers* of a value are the variables, parameters and defined names in the closures that it
holds, at any depth of its pairs and dictionaries (`Value.identifiers`); those of an expression are
the ones in its own nodes and in the values that it quotes (`Expr.identifiers`).  Collecting the
names of an expression finds all of them but those behind a dictionary in quoted data.

An expression or a value that is valid matches itself once it is placed, if two runs both have its
identifiers reserved (`Expr.Valid.matches_place`, `Value.Valid.matches_place`).  For a program that
was read these are just the names that are collected from it
(`Expr.MatchesSeq.refl_place_of_ready`).
-/

namespace Lambdict

mutual

/-- **The identifiers** of an expression. -/
def Expr.identifiers : Expr → List String
  | .var x => [x]
  | .cond t c a => t.identifiers ++ (c.identifiers ++ a.identifiers)
  | .lambda ps b => ps ++ Expr.identifiersAll b
  | .app f es => f.identifiers ++ Expr.identifiersAll es
  | .define x e => x :: e.identifiers
  | .quote d => d.identifiers
  | .dict es => Expr.identifiersEntries es
  | .foreign v => v.identifiers
  | .number _ | .boolean _ | .string _ | .prim _ => []

/-- The identifiers of several expressions. -/
def Expr.identifiersAll : List Expr → List String
  | [] => []
  | e :: es => e.identifiers ++ Expr.identifiersAll es

/-- The identifiers in the values of a dictionary literal. -/
def Expr.identifiersEntries : List (String × Expr) → List String
  | [] => []
  | (_, e) :: es => e.identifiers ++ Expr.identifiersEntries es

/-- **The identifiers** of a value: those in its closures. -/
def Value.identifiers : Value → List String
  | .pair _ h t => h.identifiers ++ t.identifiers
  | .closure _ ps b => ps ++ Expr.identifiersAll b
  | .dict _ es => Value.identifiersEntries es
  | .code _ e => e.identifiers
  | .sequence _ vs => Value.identifiersAll vs
  | .nothing | .number _ | .boolean _ | .string _ | .symbol _ | .empty | .prim _ => []

/-- The identifiers of several values. -/
def Value.identifiersAll : List Value → List String
  | [] => []
  | v :: vs => v.identifiers ++ Value.identifiersAll vs

/-- The identifiers in the values of a dictionary or of bindings. -/
def Value.identifiersEntries : List (String × Value) → List String
  | [] => []
  | (_, v) :: es => v.identifiers ++ Value.identifiersEntries es

end

/-! ## What is valid matches itself -/

variable {W : World}

/-- Two runs have names reserved. -/
def World.Reserves (W : World) (xs : List String) : Prop :=
  ∀ x ∈ xs, x ∈ W.left.reserved ∧ x ∈ W.right.reserved

theorem World.reserves_append {xs ys : List String} :
    W.Reserves (xs ++ ys) ↔ W.Reserves xs ∧ W.Reserves ys :=
  List.forall_mem_append

theorem World.reserves_cons {x : String} {xs : List String} :
    W.Reserves (x :: xs) ↔
      (x ∈ W.left.reserved ∧ x ∈ W.right.reserved) ∧ W.Reserves xs :=
  List.forall_mem_cons

/-- Reserved parameters of a well-formed lambda are sound on both sides. -/
theorem Scope.Reflects.params_self {Γ : Scope} (h : Scope.Reflects W Γ) {ps : List String}
    {b : List Expr} (hp : Expr.NodeWellFormed (.lambda ps b)) (hps : W.Reserves ps) :
    Γ.params ps ps :=
  h.params ps ⟨hp.2.1, hp.1, fun p hm => .inl (hps p hm).1⟩
    ⟨hp.2.1, hp.1, fun p hm => .inl (hps p hm).2⟩

mutual

/-- **A valid expression matches itself** once it is placed, where its identifiers are reserved. -/
theorem Expr.Valid.matches_place (hsame : ∀ n, W.same (.given n) (.given n)) {Γ : Scope}
    (h : Scope.Reflects W Γ) : ∀ {e : Expr}, e.Valid → W.Reserves e.identifiers →
    ∀ n, (e.place n).1.Matches (W.link False) Γ (e.place n).1
  | .number m, _, _, _ => .number m
  | .boolean b, _, _, _ => .boolean b
  | .string s, _, _, _ => .string s
  | .prim p, _, _, _ => .prim p
  | .var x, _, hW, _ => by
    obtain ⟨hx, hx'⟩ := hW x (List.mem_singleton_self x)
    exact .var (h.names x hx hx')
  | .quote _, he, hW, n => .quote (Value.Valid.matches_place hsame he.2 hW n)
  | .cond _ _ _, he, hW, n => by
    obtain ⟨ht, hW⟩ := World.reserves_append.1 hW
    obtain ⟨hc, ha⟩ := World.reserves_append.1 hW
    exact .cond (Expr.Valid.matches_place hsame h he.2.1 ht n)
      (Expr.Valid.matches_place hsame h he.2.2.1 hc _)
      (Expr.Valid.matches_place hsame h he.2.2.2 ha _)
  | .lambda ps b, he, hW, n => by
    obtain ⟨hps, hb⟩ := World.reserves_append.1 hW
    exact .lambda (h.params_self he.1 hps)
      (Expr.ValidAll.matchesSeq_place hsame (h.bind ps) he.2 hb n)
  | .app _ _, he, hW, n => by
    obtain ⟨hf, hes⟩ := World.reserves_append.1 hW
    exact .app (fun hs => hs.elim) (Expr.Valid.matches_place hsame h he.2.1 hf n)
      (Expr.ValidAll.matchesEach_place hsame h he.2.2 hes _)
  | .define _ _, he, hW, n => by
    obtain ⟨hx, hv⟩ := World.reserves_cons.1 hW
    exact .define hx (Expr.Valid.matches_place hsame h he.2 hv n)
  | .dict _, he, hW, n =>
    .dict id rfl (Expr.ValidEntries.matchesEach_place hsame h he.2 hW n)

theorem Expr.ValidAll.matchesSeq_place (hsame : ∀ n, W.same (.given n) (.given n))
    {Γ : Scope} (h : Scope.Reflects W Γ) :
    ∀ {es : List Expr}, Expr.ValidAll es → W.Reserves (Expr.identifiersAll es) →
      ∀ n, Expr.MatchesSeq (W.link False) Γ (Expr.placeAll n es).1 (Expr.placeAll n es).1
  | [], _, _, _ => .nil
  | _ :: _, he, hW, n => by
    obtain ⟨hW, hWs⟩ := World.reserves_append.1 hW
    exact .cons (Expr.Valid.matches_place hsame h he.1 hW n)
      (Expr.ValidAll.matchesSeq_place hsame (h.after _) he.2 hWs _)

theorem Expr.ValidAll.matchesEach_place (hsame : ∀ n, W.same (.given n) (.given n))
    {Γ : Scope} (h : Scope.Reflects W Γ) :
    ∀ {es : List Expr}, Expr.ValidAll es → W.Reserves (Expr.identifiersAll es) →
      ∀ n, Expr.MatchesEach (W.link False) Γ (Expr.placeAll n es).1 (Expr.placeAll n es).1
  | [], _, _, _ => .nil
  | _ :: _, he, hW, n => by
    obtain ⟨hW, hWs⟩ := World.reserves_append.1 hW
    exact .cons (Expr.Valid.matches_place hsame h he.1 hW n)
      (Expr.ValidAll.matchesEach_place hsame h he.2 hWs _)

theorem Expr.ValidEntries.matchesEach_place (hsame : ∀ n, W.same (.given n) (.given n))
    {Γ : Scope} (h : Scope.Reflects W Γ) :
    ∀ {es : List (String × Expr)}, Expr.ValidEntries es →
      W.Reserves (Expr.identifiersEntries es) →
      ∀ n, Expr.MatchesEach (W.link False) Γ ((Expr.placeEntries n es).1.map Prod.snd)
        ((Expr.placeEntries n es).1.map Prod.snd)
  | [], _, _, _ => .nil
  | (_, _) :: _, he, hW, n => by
    obtain ⟨hW, hWs⟩ := World.reserves_append.1 hW
    exact .cons (Expr.Valid.matches_place hsame h he.1 hW n)
      (Expr.ValidEntries.matchesEach_place hsame h he.2 hWs _)

/-- **A valid value matches itself** once it is placed, where its identifiers are reserved. -/
theorem Value.Valid.matches_place (hsame : ∀ n, W.same (.given n) (.given n)) :
    ∀ {v : Value}, v.Valid → W.Reserves v.identifiers → ∀ n,
      (v.place n).1.Matches (W.link False) (v.place n).1
  | .pair _ _ _, hv, hW, n => by
    obtain ⟨hh, ht⟩ := World.reserves_append.1 hW
    exact .pair (hsame n) (Value.Valid.matches_place hsame hv.1 hh _)
      (Value.Valid.matches_place hsame hv.2 ht _)
  | .closure _ ps _, hv, hW, n => by
    obtain ⟨hps, hb⟩ := World.reserves_append.1 hW
    have hbase := Scope.Reflects.base False W
    exact .closure (hsame n) (hbase.params_self hv.1 hps)
      (Expr.ValidAll.matchesSeq_place hsame (hbase.bind ps) hv.2 hb _)
  | .dict _ _, hv, hW, n =>
    .dict (hsame n) rfl (Value.ValidEntries.matchesAll_place hsame hv hW _)
  | .number _, _, _, _ | .boolean _, _, _, _ | .string _, _, _, _ | .symbol _, _, _, _
  | .empty, _, _, _ | .prim _, _, _, _ => .plain rfl

theorem Value.ValidEntries.matchesAll_place (hsame : ∀ n, W.same (.given n) (.given n)) :
    ∀ {es : List (String × Value)}, Value.ValidEntries es →
      W.Reserves (Value.identifiersEntries es) →
      ∀ n, Value.MatchesAll (W.link False) ((Value.placeEntries n es).1.map Prod.snd)
        ((Value.placeEntries n es).1.map Prod.snd)
  | [], _, _, _ => .nil
  | (_, _) :: _, hv, hW, n => by
    obtain ⟨hW, hWs⟩ := World.reserves_append.1 hW
    exact .cons (Value.Valid.matches_place hsame hv.1 hW n)
      (Value.ValidEntries.matchesAll_place hsame hv.2 hWs _)

end

/-! ## Programs that were read -/

/-- Readable data holds no closures, and so no identifiers. -/
theorem Value.Readable.identifiers_eq : ∀ {d : Value}, d.Readable → d.identifiers = []
  | .pair _ _ _, h => by rw [Value.identifiers, identifiers_eq h.1, identifiers_eq h.2]; rfl
  | .number _, _ | .boolean _, _ | .string _, _ | .symbol _, _ | .empty, _ => rfl

namespace Expr

variable {N : NameSet}

mutual

theorem Every.identifiers_reserved : ∀ {e : Expr}, e.Every (NodeReady N) →
    ∀ x ∈ e.identifiers, x ∈ N
  | .var _, he => List.forall_mem_singleton.2 he.2
  | .cond _ _ _, he => List.forall_mem_append.2 ⟨he.2.1.identifiers_reserved,
    List.forall_mem_append.2 ⟨he.2.2.1.identifiers_reserved, he.2.2.2.identifiers_reserved⟩⟩
  | .lambda _ _, he => List.forall_mem_append.2 ⟨he.1.2, EveryAll.identifiers_reserved he.2⟩
  | .app _ _, he => List.forall_mem_append.2
    ⟨he.2.1.identifiers_reserved, EveryAll.identifiers_reserved he.2.2⟩
  | .define _ _, he => List.forall_mem_cons.2 ⟨he.1.2, he.2.identifiers_reserved⟩
  | .dict _, he => EveryEntry.identifiers_reserved he.2
  | .quote _, he => by
    rw [identifiers, Value.Readable.identifiers_eq he.1.2]
    exact nofun
  | .number _, _ | .boolean _, _ | .string _, _ | .prim _, _ => nofun

/-- All identifiers of a program that is ready to run are reserved. -/
theorem EveryAll.identifiers_reserved : ∀ {es : List Expr}, EveryAll (NodeReady N) es →
    ∀ x ∈ identifiersAll es, x ∈ N
  | [], _ => nofun
  | _ :: _, h => List.forall_mem_append.2
    ⟨h.1.identifiers_reserved, EveryAll.identifiers_reserved h.2⟩

theorem EveryEntry.identifiers_reserved : ∀ {es : List (String × Expr)},
    EveryEntry (NodeReady N) es → ∀ x ∈ identifiersEntries es, x ∈ N
  | [], _ => nofun
  | (_, _) :: _, h => List.forall_mem_append.2
    ⟨h.1.identifiers_reserved, EveryEntry.identifiers_reserved h.2⟩

end

/-- **A program matches itself** where both runs have reserved its names, whatever else they have
reserved. -/
theorem MatchesSeq.refl_place_of_ready {W : World} (hsame : ∀ n, W.same (.given n) (.given n))
    {es : List Expr} (hl : EveryAll (NodeReady W.left.reserved) es)
    (hr : EveryAll (NodeReady W.right.reserved) es) (n : Nat) :
    MatchesSeq (W.link False) (W.link False).base (placeAll n es).1 (placeAll n es).1 := by
  have hvalid : ValidAll es := EveryAll.validAll (EveryAll.imp (fun _ he => he.1) hl)
  exact hvalid.matchesSeq_place hsame (Scope.Reflects.base False W)
    (fun x hx => ⟨hl.identifiers_reserved x hx, hr.identifiers_reserved x hx⟩) n

end Expr

end Lambdict
