import Lambdict.Proofs.Collected
import Lambdict.Proofs.Matching.Simulation

/-!
# The start of a run

When a run begins, all names of its program are reserved and nothing has been drawn or made.  So
parameters have names that the supply will not give, and every other name may stand outside all
lambdas.
-/

namespace Lambdict

/-- The world in which two runs begin: what came with the programs corresponds by its place. -/
def World.start (N N' : NameSet) : World where
  same i j := ∃ n, i = .given n ∧ j = .given n
  left := .start N
  right := .start N'

theorem World.fits_start (N N' : NameSet) :
    (World.start N N').Fits (.start (.start N)) (.start (.start N')) := by
  refine ⟨rfl, rfl, ?_, ?_, rfl, rfl⟩
  · rintro _ _ ⟨n, rfl, rfl⟩
    exact ⟨trivial, trivial⟩
  · rintro _ _ _ _ ⟨m, rfl, rfl⟩ ⟨n, rfl, rfl⟩
    exact .rfl

/-- A run of a sound program evaluates it with its names reserved. -/
theorem runProgram_of_collectNames {p : List Expr} {names : NameSet}
    (hp : Expr.EveryAll Expr.NodeSound p) (h : collectNames p = .ok names) (depth : Nat) :
    runProgram depth p =
      Expr.evalSeqAt depth .empty (Expr.placeAll 0 p).1 (.start (.start names)) := by
  simp only [runProgram, Eval.reserving, collectNames_place hp.validAll h]

/-- Parameters whose names are reserved are sound. -/
theorem Expr.NodeReady.sound (s : NameSupply) {ps : List String} {b : List Expr}
    (h : Expr.NodeReady s.reserved (.lambda ps b)) : s.Sound ps :=
  ⟨h.1.1.2.1, h.1.1.1, fun p hp => .inl (h.2 p hp)⟩

theorem mem_zip_self {x : String} {xs : List String} (h : x ∈ xs) : (x, x) ∈ xs.zip xs := by
  induction h with
  | head => exact List.mem_cons_self ..
  | tail _ _ ih => exact List.mem_cons_of_mem _ ih

/-- A scope in which reserved names go with themselves, so that an expression with reserved names
can match itself or its expansion. -/
structure Scope.Reflects (W : World) (Γ : Scope) : Prop where
  names : ∀ x, x ∈ W.left.reserved → x ∈ W.right.reserved → Γ.names x x
  params : ∀ ps, W.left.Sound ps → W.right.Sound ps → Γ.params ps ps
  added : ∀ ps, W.right.Sound ps → Γ.added ps

namespace Scope.Reflects

variable {W : World} {Γ : Scope}

theorem base (expands : Prop) (W : World) : Scope.Reflects W (W.link expands).base where
  names _ hx hx' := ⟨rfl, hx, hx'⟩
  params _ hp hp' := ⟨rfl, hp, hp', fun _ => List.forall₂_same.2 fun _ _ => .inl rfl⟩
  added _ hp := hp

theorem bind (h : Scope.Reflects W Γ) (ps : List String) : Scope.Reflects W (Γ.bind ps ps) where
  names x hx hx' := by
    by_cases hm : x ∈ ps
    · exact .inl (mem_zip_self hm)
    · exact .inr ⟨hm, hm, h.names x hx hx'⟩
  params := h.params
  added := h.added

theorem after (h : Scope.Reflects W Γ) (e : Expr) : Scope.Reflects W (Γ.after e) := by
  cases e with
  | define x e => exact h.bind [x]
  | _ => exact h

end Scope.Reflects

/-- Readable data matches itself once it is placed. -/
theorem Value.Matches.refl_place {L : Link} (hsame : ∀ n, L.same (.given n) (.given n)) :
    ∀ {d : Value}, d.Readable → ∀ n, (d.place n).1.Matches L (d.place n).1
  | .pair _ _ _, hd, n => .pair (hsame n) (refl_place hsame hd.1 _) (refl_place hsame hd.2 _)
  | .number _, _, _ | .boolean _, _, _ | .string _, _, _ | .symbol _, _, _ | .empty, _, _ =>
    .plain rfl

end Lambdict
