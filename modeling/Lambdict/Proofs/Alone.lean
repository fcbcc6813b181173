import Lambdict.Proofs.Alpha
import Lambdict.Proofs.Identifiers
import Lambdict.Proofs.Sessions.State
import Lambdict.Proofs.Supplies

/-!
# Evaluation of an expression by itself

An expression that is evaluated by itself has its own names reserved and no others, although the
environment may bring closures with names of their own.  Where that is enough, reserving the
identifiers of the environment as well changes nothing that counts (`evalAlone_hygienic`).  It is
enough when no identifier has the form of a name that the supply will give, or else it is a name of
the expression.

It is not enough in general (`evalAlone_captures`).  A closure that an earlier evaluation made has
parameters that were drawn from its supply, and the evaluation of another expression draws the same
names again when it renames the body of the closure.

Neither supply need have all identifiers reserved, but what relates the two runs asks for that.  So
the comparison goes by way of two more supplies: each is one of the given ones with all identifiers
reserved in addition, which makes no difference since it does not give them anyhow
(`evalReserving_alike`).
-/

namespace Lambdict

/-- The value of an expression by itself, in an environment given by its bindings from the outermost
on, where some names are reserved. -/
def evalReserving (depth : Nat) (names : NameSet) (bindings : List (String × Value)) (e : Expr) :
    Option (Except Error Value × Store) :=
  let (env, n) := Environment.place 0 bindings
  (e.place n).1.evalAt depth env (.start (.start names))

/-- What relates a first run to a second, and the second to a third. -/
theorem rel_agree_trans {α β γ : Type} {R : α → β → Prop} {Q : β → γ → Prop} {T : α → γ → Prop}
    (h : ∀ a b c, R a b → Q b c → T a c) {o : Option (Except Error α × Store)}
    {o' : Option (Except Error β × Store)} {o'' : Option (Except Error γ × Store)} :
    Option.Rel (fun r r' => Agree R r.1 r'.1) o o' →
      Option.Rel (fun r r' => Agree Q r.1 r'.1) o' o'' →
        Option.Rel (fun r r' => Agree T r.1 r'.1) o o''
  | .none, .none => .none
  | .some hr, .some hq => .some (hr.trans h hq)

/-! ## The two supplies -/

/-- The identifiers of an expression and of bindings. -/
def identifiersWith (bindings : List (String × Value)) (e : Expr) : List String :=
  e.identifiers ++ Value.identifiersEntries bindings

section

variable {bindings : List (String × Value)} {e : Expr} {names N N' : NameSet}

/-- A valid expression by itself has the names reserved that are collected from it. -/
theorem evalAlone_eq (he : e.Valid) (hnames : collectNames [e] = .ok names) (depth : Nat) :
    evalAlone depth bindings e = evalReserving depth names bindings e := by
  have hvalid : Expr.ValidAll [e] := ⟨he, trivial⟩
  have hplaced : collectNames [(e.place (Environment.place 0 bindings).2).1] = .ok names :=
    collectNames_place hvalid hnames _
  simp only [evalAlone, evalReserving, Eval.reserving, hplaced]

/-- Supplies that are alike make no difference. -/
theorem evalReserving_alike (h : (NameSupply.start N).Alike (.start N')) (depth : Nat) :
    Option.Rel (fun r r' => Agree Eq r.1 r'.1) (evalReserving depth N bindings e)
      (evalReserving depth N' bindings e) :=
  Expr.evalAt_alike (s := .start (.start N)) (t := .start (.start N')) ⟨rfl, rfl, h⟩ depth _ _

/-- Placed bindings are related to themselves where their identifiers are reserved. -/
theorem Value.ValidEntries.envRel_place {W : World} (hsame : ∀ n, W.same (.given n) (.given n))
    (hb : Value.ValidEntries bindings) (hW : W.Reserves (Value.identifiersEntries bindings))
    (n : Nat) : (matching False).EnvRel W (Environment.place n bindings).1
      (Environment.place n bindings).1 := by
  have hplaced : List.Forall₂ (EntryRel (Value.Matches (W.link False)))
      (Value.placeEntries n bindings).1 (Value.placeEntries n bindings).1 :=
    forall₂_entryRel_iff.2 ⟨rfl, Value.matchesAll_iff.1 (hb.matchesAll_place hsame hW n)⟩
  simp only [Simulation.EnvRel, Environment.place, Environment.bindings_extendAll]
  exact List.rel_append (List.rel_reverse hplaced) .nil

/-- **Where all identifiers are reserved**, it makes no difference what else is. -/
theorem evalReserving_agrees (he : e.Valid) (hb : Value.ValidEntries bindings)
    (hN : ∀ x ∈ identifiersWith bindings e, x ∈ N)
    (hN' : ∀ x ∈ identifiersWith bindings e, x ∈ N') (depth : Nat) :
    Option.Rel (fun r r' => Agree Value.AlphaEq r.1 r'.1) (evalReserving depth N bindings e)
      (evalReserving depth N' bindings e) := by
  let W := World.start N N'
  have hsame (n : Nat) : W.same (.given n) (.given n) := ⟨n, rfl, rfl⟩
  obtain ⟨hWe, hWb⟩ : W.Reserves e.identifiers ∧ W.Reserves (Value.identifiersEntries bindings) :=
    World.reserves_append.1 fun x hx => ⟨hN x hx, hN' x hx⟩
  have hexpr := he.matches_place hsame (Scope.Reflects.base False W) hWe
    (Environment.place 0 bindings).2
  have henv := hb.envRel_place hsame hWb 0
  have hruns := Simulation.evalAt_runs ((matching False).applies depth) _ hexpr henv
  refine hruns.lockstep id (World.fits_start N N') fun V _ _ _ _ _ hr => ?_
  exact hr.imp fun v v' hv => hv.mono V.link_le_alpha

end

/-! ## Hygiene -/

/-- **An expression by itself is evaluated hygienically**, unless the supply can give a name that
the environment uses.  Let every identifier be a name of the expression, or else not end with a
positive number.  Then the evaluation goes as if the identifiers of the environment were reserved
too: it ends within the same depths, and comes to the same value up to the names of parameters, or
to a condition that is alike. -/
theorem evalAlone_hygienic {bindings : List (String × Value)} {e : Expr} (he : e.Valid)
    (hb : Value.ValidEntries bindings) {names N : NameSet} (hnames : collectNames [e] = .ok names)
    (hN : ∀ x, x ∈ names ∨ x ∈ Value.identifiersEntries bindings → x ∈ N)
    (hcovers : ∀ x ∈ identifiersWith bindings e, (NameSupply.start names).Covers x)
    (depth : Nat) :
    Option.Rel (fun r r' => Agree Value.AlphaEq r.1 r'.1) (evalAlone depth bindings e)
      (evalReserving depth N bindings e) := by
  let all := NameSet.ofList (identifiersWith bindings e)
  have hall (x : String) (hx : x ∈ all) : (NameSupply.start names).Covers x :=
    hcovers x (NameSet.mem_ofList.1 hx)
  have hmem (M : NameSet) : ∀ x ∈ identifiersWith bindings e, x ∈ M.union all :=
    fun x hx => NameSet.mem_union.2 (.inr (NameSet.mem_ofList.2 hx))
  have hle : (NameSupply.start names).Le (.start N) :=
    ⟨fun x hx => hN x (.inl hx), Int.le_refl _⟩
  -- all identifiers can be reserved in addition, before and after the comparison
  have hleft : (NameSupply.start names).Alike (.start (names.union all)) :=
    NameSupply.alike_reserve hall
  have hright : (NameSupply.start N).Alike (.start (N.union all)) :=
    NameSupply.alike_reserve fun x hx => (hall x hx).mono hle
  rw [evalAlone_eq he hnames]
  have hreserved := rel_agree_trans (fun _ _ _ h heq => heq ▸ h)
    (evalReserving_agrees he hb (hmem names) (hmem N) depth)
    (evalReserving_alike hright.symm depth)
  exact rel_agree_trans (fun _ _ _ heq h => heq ▸ h) (evalReserving_alike hleft depth) hreserved

/-- A closure of the environment gives a closure, and that adds what the two are applied to.  Of the
names in question one is a name of the expression, and the others have no number. -/
theorem evalAlone_hygienic_sum :
    let sum : Expr := .lambda ["y"] [.app (.prim .add) [.var "y", .var "x"]]
    let bindings : List (String × Value) := [("f", .closure (.given 0) ["x"] [sum])]
    let e : Expr := .app (.app (.var "f") [.number (.int 5)]) [.number (.int 7)]
    let names : NameSet := .ofList ["f"]
    let N : NameSet := .ofList ["f", "x", "y"]
    e.Valid ∧ Value.ValidEntries bindings ∧ collectNames [e] = .ok names ∧
      (∀ x, x ∈ names ∨ x ∈ Value.identifiersEntries bindings → x ∈ N) ∧
      (∀ x ∈ identifiersWith bindings e, (NameSupply.start names).Covers x) ∧
      (evalAlone 2 bindings e).map (·.1) = some (.ok (.number (.int 12))) ∧
      Option.Rel (fun r r' => Agree Value.AlphaEq r.1 r'.1) (evalAlone 2 bindings e)
        (evalReserving 2 N bindings e) := by
  intro sum bindings e names N
  have he : e.Valid := by
    simp [e, Expr.Valid, Expr.ValidAll, Expr.NodeWellFormed, Expr.isDefinition]
  have hb : Value.ValidEntries bindings := by
    simp [bindings, sum, Value.ValidEntries, Value.Valid, Expr.Valid, Expr.ValidAll,
      Expr.NodeWellFormed, Expr.isDefinition]
  have hnames : collectNames [e] = .ok names := by rfl
  have hN : ∀ x, x ∈ names ∨ x ∈ Value.identifiersEntries bindings → x ∈ N := by
    simp [names, N, bindings, sum, Value.identifiersEntries, Value.identifiers,
      Expr.identifiersAll, Expr.identifiers]
  have hcovers : ∀ x ∈ identifiersWith bindings e, (NameSupply.start names).Covers x := by
    intro x hx
    have hmem : ∀ x ∈ identifiersWith bindings e, x = "f" ∨ x = "x" ∨ x = "y" := by decide
    rcases hmem x hx with rfl | rfl | rfl
    · exact .inl (by decide)
    · exact NameSupply.covers_of_no_underscore _ (by decide)
    · exact NameSupply.covers_of_no_underscore _ (by decide)
  exact ⟨he, hb, hnames, hN, hcovers, by rfl, evalAlone_hygienic he hb hnames hN hcovers 2⟩

/-- **It is not hygienic in general**.  The closure of the environment has a parameter of the form
that an earlier evaluation would draw, and renaming its body draws the same name for the parameter
inside.  So the inner one takes the place of the outer one, and the sum comes out wrong. -/
theorem evalAlone_captures :
    let sum : Expr := .lambda ["y"] [.app (.prim .add) [.var "y", .var "y__1"]]
    let bindings : List (String × Value) := [("f", .closure (.given 0) ["y__1"] [sum])]
    let e : Expr := .app (.app (.var "f") [.number (.int 5)]) [.number (.int 7)]
    let names : NameSet := .ofList ["f"]
    let N : NameSet := .ofList ["f", "y", "y__1"]
    e.Valid ∧ Value.ValidEntries bindings ∧ collectNames [e] = .ok names ∧
      (∀ x, x ∈ names ∨ x ∈ Value.identifiersEntries bindings → x ∈ N) ∧
      (evalAlone 2 bindings e).map (·.1) = some (.ok (.number (.int 14))) ∧
      (evalReserving 2 N bindings e).map (·.1) = some (.ok (.number (.int 12))) ∧
      ¬ Option.Rel (fun r r' => Agree Value.AlphaEq r.1 r'.1) (evalAlone 2 bindings e)
        (evalReserving 2 N bindings e) := by
  intro sum bindings e names N
  have halone : (evalAlone 2 bindings e).map (·.1) = some (.ok (.number (.int 14))) := by rfl
  have hreserving : (evalReserving 2 N bindings e).map (·.1) =
      some (.ok (.number (.int 12))) := by rfl
  refine ⟨?_, ?_, by rfl, ?_, halone, hreserving, fun hrel => ?_⟩
  · simp [e, Expr.Valid, Expr.ValidAll, Expr.NodeWellFormed, Expr.isDefinition]
  · simp [bindings, sum, Value.ValidEntries, Value.Valid, Expr.Valid, Expr.ValidAll,
      Expr.NodeWellFormed, Expr.isDefinition]
  · simp [names, N, bindings, sum, Value.identifiersEntries, Value.identifiers,
      Expr.identifiersAll, Expr.identifiers]
  · -- two numbers are alpha-equivalent only if they are the same
    obtain ⟨⟨_, t⟩, h, rfl⟩ := Option.map_eq_some_iff.1 halone
    obtain ⟨⟨_, t'⟩, h', rfl⟩ := Option.map_eq_some_iff.1 hreserving
    rw [h, h'] at hrel
    cases hrel with
    | some hagree =>
      cases hagree with
      | ok hv => cases hv

end Lambdict
