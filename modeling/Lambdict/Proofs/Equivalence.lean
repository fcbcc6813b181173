import Lambdict.Proofs.Equality

/-!
# The equalities agree

Equality of values is an equivalence relation, where no number in them is not a number
(`Value.equal_equivalence`).  This follows from what equal values share: the outlines of two equal
values are one, and their numbers are equal one by one, so all that is needed is that equality of
numbers is an equivalence.

Pairs can be compared in a second way, by a walk along their tails that stops early where the two
are one object (`Value.walkEqual`).  It comes to the same, provided that an object is one thing
wherever it occurs (`Value.Coherent`).

On atoms `eq?` and `=` are this equality too.  On everything else `eq?` is false.
-/

namespace Lambdict

/-! ## An equivalence relation -/

namespace NumbersEqual

variable {ms ns ks : List Number}

/-- Numbers other than NaN equal themselves. -/
theorem refl (h : ∀ n ∈ ns, n.isNaN = false) : NumbersEqual Number.equal ns ns :=
  List.forall₂_same.2 fun n hn => Number.equal_refl (h n hn)

/-- Equality of numbers goes both ways. -/
theorem symm (h : NumbersEqual Number.equal ms ns) : NumbersEqual Number.equal ns ms := by
  refine List.Forall₂.flip (h.imp fun m n hmn => ?_)
  show n.equal m = true
  rw [Number.equal_symm]
  exact hmn

/-- Equality of numbers carries over. -/
theorem trans (h : NumbersEqual Number.equal ms ns) (h' : NumbersEqual Number.equal ns ks) :
    NumbersEqual Number.equal ms ks := by
  induction h generalizing ks with
  | nil => exact h'
  | cons hmn _ ih =>
    cases h' with
    | cons hnk hrest => exact .cons (Number.equal_trans hmn hnk) (ih hrest)

end NumbersEqual

namespace Value

/-- **Values are equal exactly when they have one outline and equal numbers.** -/
theorem equal_iff {a b : Value} : a.equal b = true ↔
    a.outline true false = b.outline true false ∧
      NumbersEqual Number.equal (a.numbers false) (b.numbers false) :=
  a.equalBy_iff truthNumber_equal true b

/-- A value without NaN equals itself. -/
theorem equal_self {a : Value} (h : a.NaNFree) : a.equal a = true :=
  equal_iff.2 ⟨rfl, .refl h⟩

/-- Equality goes both ways. -/
theorem equal_swap {a b : Value} (h : a.equal b = true) : b.equal a = true := by
  obtain ⟨houtline, hnumbers⟩ := equal_iff.1 h
  exact equal_iff.2 ⟨houtline.symm, hnumbers.symm⟩

/-- Equality carries over. -/
theorem equal_chain {a b c : Value} (hab : a.equal b = true) (hbc : b.equal c = true) :
    a.equal c = true := by
  obtain ⟨hout, hnum⟩ := equal_iff.1 hab
  obtain ⟨hout', hnum'⟩ := equal_iff.1 hbc
  exact equal_iff.2 ⟨hout.trans hout', hnum.trans hnum'⟩

/-! ## Walking along pairs -/

/-- **Equality found by walking.**  Two pairs that are one object are equal.  Of other pairs the
heads are compared first, and the walk goes on with the tails; it ends where one side is no pair. -/
def walkEqual : Value → Value → Bool
  | .pair i h t, .pair j h' t' =>
    if i = j then true else if h.walkEqual h' then t.walkEqual t' else false
  | .pair .., _ => false
  | _, .pair .. => false
  | a, b => a.equal b
termination_by structural a => a

/-- The pairs that a value is built of: the links of its chain, and those of its elements. -/
def pairs : Value → List Value
  | .pair i h t => .pair i h t :: (h.pairs ++ t.pairs)
  | _ => []

/-- **Coherent** values: a pair in the one and a pair in the other are the same thing if they are
the same object. -/
def Coherent (a b : Value) : Prop :=
  ∀ p ∈ a.pairs, ∀ q ∈ b.pairs, p.identical q = true → p = q

/-- The parts of a pair without NaN have none. -/
theorem NaNFree.of_pair {i : Identity} {h t : Value} (hn : (Value.pair i h t).NaNFree) :
    h.NaNFree ∧ t.NaNFree :=
  List.forall_mem_append.1 hn

/-- The parts of coherent pairs are coherent. -/
theorem Coherent.of_pair {i j : Identity} {h t h' t' : Value}
    (hc : (Value.pair i h t).Coherent (.pair j h' t')) : h.Coherent h' ∧ t.Coherent t' := by
  constructor
  · intro p hp q hq
    exact hc p (List.mem_cons_of_mem _ (List.mem_append_left _ hp)) q
      (List.mem_cons_of_mem _ (List.mem_append_left _ hq))
  · intro p hp q hq
    exact hc p (List.mem_cons_of_mem _ (List.mem_append_right _ hp)) q
      (List.mem_cons_of_mem _ (List.mem_append_right _ hq))

/-- Pairs are equal when their heads and their tails are. -/
theorem equal_pair (i j : Identity) (h t h' t' : Value) :
    (Value.pair i h t).equal (.pair j h' t') = (h.equal h' && t.equal t') := rfl

/-- **The walk along the tails comes to the same as equality**, if an object is one thing wherever
it occurs. -/
theorem walkEqual_eq {a b : Value} (hn : a.NaNFree) (hc : a.Coherent b) :
    a.walkEqual b = a.equal b := by
  fun_induction walkEqual a b with
  | case1 h t i h' t' =>
    -- the early exit: the two are one
    have hone := hc _ List.mem_cons_self _ List.mem_cons_self (by simp [identical, identity?])
    rw [← hone, equal_self hn]
  | case2 i h t j h' t' hij hh ihh iht =>
    rw [equal_pair, ← ihh hn.of_pair.1 hc.of_pair.1, ← iht hn.of_pair.2 hc.of_pair.2, hh]
    rfl
  | case3 i h t j h' t' hij hh ihh =>
    rw [equal_pair, ← ihh hn.of_pair.1 hc.of_pair.1]
    simp [hh]
  | case4 i h t b hb =>
    cases b with
    | pair j h' t' => exact absurd rfl (hb j h' t')
    | _ => rfl
  | case5 a j h' t' ha =>
    cases a with
    | pair i h t => exact absurd rfl (ha i h t)
    | _ => rfl
  | case6 => rfl

/-! ## Atoms -/

/-- On atoms `eq?` is equality. -/
theorem atomEqual_of_atoms {a b : Value} (ha : a.isAtom = true) (hb : b.isAtom = true) :
    a.atomEqual b = a.equal b := by
  cases a <;> cases b <;> simp_all [isAtom, atomEqual, equal, equalBy, Bool.beq_eq_decide_eq]

/-- On atoms `=` is equality. -/
theorem numEqual_of_atoms {a b : Value} (ha : a.isAtom = true) (hb : b.isAtom = true) :
    a.numEqual b = a.equal b := by
  cases a <;> cases b <;> simp_all [isAtom, numEqual, number?, equal, equalBy]

/-- What is no atom is never `eq?` to anything. -/
theorem atomEqual_of_not_atom {a b : Value} (h : a.isAtom = false ∨ b.isAtom = false) :
    a.atomEqual b = false := by
  cases a <;> cases b <;> simp_all [isAtom, atomEqual]

/-- **Equality is an equivalence relation, and the equalities agree.**  It is an equivalence on the
values without a number that is not a number.  The walk along two pairs compares them as the
structure of both does, by heads and tails.  On atoms `eq?` and `=` give the same answer as
equality, and where one of two values is no atom, being a pair, a closure, a primitive or a
dictionary, `eq?` gives false. -/
theorem equal_equivalence :
    Equivalence (fun a b : {v : Value // v.NaNFree} => a.1.equal b.1 = true) ∧
    (∀ a b : Value, a.NaNFree → a.Coherent b → a.walkEqual b = a.equal b) ∧
    (∀ (i j : Identity) (h t h' t' : Value),
      (Value.pair i h t).equal (.pair j h' t') = (h.equal h' && t.equal t')) ∧
    (∀ a b : Value, a.isAtom = true → b.isAtom = true →
      Primitive.eq.apply [a, b] = Primitive.truth (a.equal b) ∧
        Primitive.numEq.apply [a, b] = Primitive.truth (a.equal b)) ∧
    (∀ a b : Value, a.isAtom = false ∨ b.isAtom = false →
      Primitive.eq.apply [a, b] = Primitive.truth false) := by
  refine ⟨⟨fun a => equal_self a.2, equal_swap, equal_chain⟩, fun a b => walkEqual_eq, equal_pair,
    fun a b ha hb => ⟨?_, ?_⟩, fun a b h => ?_⟩
  · exact congrArg Primitive.truth (atomEqual_of_atoms ha hb)
  · exact congrArg Primitive.truth (numEqual_of_atoms ha hb)
  · exact congrArg Primitive.truth (atomEqual_of_not_atom h)

/-- Two lists that share their last pair, one with an integer and one with the double that it
equals; and a symbol and a string of one spelling, which `eq?` tells apart. -/
theorem equal_equivalence_shared :
    let shared : Value := .pair (.made 0) (.boolean true) .empty
    let p : Value := .pair (.made 1) (.number (.int 1)) shared
    let q : Value := .pair (.made 2) (.number (.float (.finite false Double.scale))) shared
    p.NaNFree ∧ q.NaNFree ∧ p.Coherent q ∧ p.walkEqual q = true ∧ q.equal p = true ∧
      Primitive.eq.apply [p, q] = Primitive.truth false ∧
      Primitive.eq.apply [.symbol "a", .string "a"] = Primitive.truth false := by
  intro shared p q
  obtain ⟨hequiv, hwalk, -, hatoms, hothers⟩ := equal_equivalence
  have hp : p.NaNFree := by simp [NaNFree, p, shared, numbers]; rfl
  have hq : q.NaNFree := by simp [NaNFree, q, shared, numbers]; rfl
  have hc : p.Coherent q := by
    intro x hx y hy hid
    simp only [p, q, shared, pairs, List.nil_append, List.append_nil, List.mem_cons,
      List.not_mem_nil, or_false] at hx hy
    rcases hx with rfl | rfl <;> rcases hy with rfl | rfl <;> simp_all [identical, identity?]
  have hequal : p.equal q = true := by decide +kernel
  refine ⟨hp, hq, hc, (hwalk p q hp hc).trans hequal, ?_, hothers p q (.inl rfl), ?_⟩
  · exact hequiv.symm (x := ⟨p, hp⟩) (y := ⟨q, hq⟩) hequal
  · exact (hatoms (.symbol "a") (.string "a") rfl rfl).1

end Value

end Lambdict
