import Lambdict.Proofs.Matching.Simulation
import Lambdict.Proofs.Nameless.Alpha
import Lambdict.Proofs.Nameless.Renaming

/-!
# The call of a closure without names

The call of a closure evaluates the renamed body with the literals of the arguments substituted for
the parameters.  In the nameless form that is the body with the literals put in
(`Value.applyAt_instantiates`), although the substitution itself does not look out for capture.  The
lambdas in the renamed body have parameters that were just drawn, and none of these is a name in a
literal, since all names in literals were covered by then.  A call whose renaming meets the digit
limit evaluates nothing.
-/

namespace Lambdict

/-! ## Literals -/

theorem Value.isDefinition_literal? {v : Value} {e : Expr} (h : v.literal? = .ok e) :
    e.isDefinition = false := by
  cases v with
  | closure i ps b =>
    simp only [Value.literal?, Expr.lambda?] at h
    cases hc : checkParameters ps (!b.isEmpty) <;> rw [hc] at h
    · cases h
    · cases hf : b.find? (!·.isProper) <;> rw [hf] at h <;> cases h
      rfl
  | number | boolean | string | prim | symbol | empty | pair =>
    cases h
    rfl
  | dict | nothing | code | sequence => cases h

theorem Value.isDefinition_literals? {vs : List Value} {es : List Expr}
    (h : Value.literals? vs = .ok es) : ∀ e ∈ es, e.isDefinition = false := by
  have hall := forall₂_literals? h
  clear h
  induction hall with
  | nil => exact fun _ he => nomatch he
  | cons hv _ ih => exact List.forall_mem_cons.2 ⟨Value.isDefinition_literal? hv, ih⟩

/-- **Literals put in for parameters.**  Their names are covered when the body is renamed, so that
no parameter drawn in between has one of them. -/
theorem Expr.follows_literals {s t : NameSupply} {ps : List String} {ls : List Expr}
    (hps : ps.Nodup) (hlen : ls.length = ps.length) (hd : ∀ l ∈ ls, l.isDefinition = false)
    (hls : ∀ l ∈ ls, l.NamesWithin s.Covers) (R : String → Prop) :
    Substitution.Follows R (s.Drawn t) (ls.map (Expr.nameless [])) 0 (Context.bind ps []) []
      (.ofLists ps ls) := by
  intro x _
  by_cases hmem : x ∈ ps
  · obtain ⟨i, hi⟩ := List.getElem?_of_mem hmem
    obtain ⟨hlt, -⟩ := List.getElem?_eq_some_iff.1 hi
    have hl : ls[i]? = some ls[i] := List.getElem?_eq_getElem (by omega)
    have hmem : ls[i] ∈ ls := List.getElem_mem _
    refine .put (e := ls[i]) (j := i) ?_ ?_ ?_ (hd _ hmem) ?_
    · rw [Substitution.find?_ofLists_getElem hps hlen hi, hl]
    · rw [Context.index?_bind_getElem hps hi, Nat.zero_add]
    · rw [List.getElem?_map, hl, Option.map_some]
    · exact (hls _ hmem).imp fun z hz => ⟨List.not_mem_nil, fun hdrawn => hz.ne hdrawn rfl⟩
  · have hnone : (Context.bind ps []).index? x = none := Context.index?_bind_of_not_mem hmem []
    refine .stays (Substitution.find?_ofLists_of_not_mem hmem _) hnone.symm fun i hi => ?_
    rw [hnone] at hi
    cases hi

/-! ## The call -/

/-- **The call of a closure substitutes without capture.**  Take a well-formed closure, as many
arguments as it has parameters, each of which has a literal, and a supply that covers all names in
the closure and in the literals.  Then the nameless form of what the call evaluates is that of the
body with the literals put in for the parameters; and whatever else is valid and has this form is
alpha-equivalent to what the call evaluates.  The call does evaluate it, unless the store is held to
the digit limit and a number that the renaming goes through is over it (`Store.Admits`); then it
ends with an abort, and the store stays as it was. -/
theorem Value.applyAt_instantiates {n : NameSupply} {ps : List String} {b : List Expr}
    {args : List Value} {ls : List Expr} (hwf : (Expr.lambda ps b).WellFormed)
    (hls : Value.literals? args = .ok ls) (hlen : args.length = ps.length)
    (hb : (Expr.lambda ps b).NamesWithin n.Covers) (hargs : ∀ l ∈ ls, l.NamesWithin n.Covers) :
    let q := Expr.substSeq (.ofLists ps ls) (Expr.renameAll b n).1
    let reference := Nameless.instantiateAll (ls.map (Expr.nameless [])) 0
      (Expr.namelessSeq (Context.bind ps []) b)
    (∀ depth i s, s.names = n →
        (s.Admits b → (Value.closure i ps b).applyAt (depth + 1) args s =
          Expr.evalSeqAt depth .empty q (s.renaming b)) ∧
        (¬ s.Admits b → (Value.closure i ps b).applyAt (depth + 1) args s =
          some (.error (.abort .longNumber), s))) ∧
      Expr.namelessSeq [] q = reference ∧
      ∀ p, Expr.ValidAll p → Expr.namelessSeq [] p = reference → Expr.AlphaEqSeq p q := by
  intro q reference
  have hlength : ls.length = ps.length := (length_literals? hls).trans hlen
  have hfollows := Expr.follows_literals (t := (Expr.renameAll b n).2) hwf.1.2.1 hlength
    (Value.isDefinition_literals? hls) hargs (Expr.renameAll b n).2.Covers
  have hq : Expr.namelessSeq [] q = reference := by
    rw [Expr.namelessSeq_subst hfollows (Expr.EveryAll.renamed n hb.2),
      Expr.namelessSeq_renameAll n hwf.2 hb.2]
  refine ⟨?_, hq, fun p hp heq => hp.alphaEqSeq_of_nameless (heq.trans hq.symm)⟩
  rintro depth i s rfl
  refine ⟨fun hadmits => ?_, Simulation.applyAt_closure_not_admitted depth i hlen⟩
  rw [Simulation.applyAt_closure_succ depth i hlen hadmits, hls]
  rfl

/-- A closure that defines the name of its second parameter anew, called with a function in which a
name is free that a lambda of the body has for its parameter. -/
theorem Value.applyAt_instantiates_free_name :
    let ps := ["f", "x"]
    let b : List Expr := [.define "x" (.app (.var "f") [.var "x"]),
      .lambda ["y"] [.app (.var "f") [.app (.var "x") [.var "y"]]]]
    let args : List Value := [.closure (.given 0) ["z"] [.var "y"], .symbol "a"]
    let ls : List Expr := [.lambda ["z"] [.var "y"], .quote (.symbol "a")]
    let n := NameSupply.start ((∅ : NameSet).insertAll ["f", "x", "y", "z"])
    let q := Expr.substSeq (.ofLists ps ls) (Expr.renameAll b n).1
    let p := [.define "x" (.app (.lambda ["k"] [.var "y"]) [.quote (.symbol "a")]),
      .lambda ["k"] [.app (.lambda ["z"] [.var "y"]) [.app (.var "x") [.var "k"]]]]
    (Expr.lambda ps b).WellFormed ∧ Value.literals? args = .ok ls ∧
      (Expr.lambda ps b).NamesWithin n.Covers ∧ (∀ l ∈ ls, l.NamesWithin n.Covers) ∧
      q = [.define "x" (.app (.lambda ["z"] [.var "y"]) [.quote (.symbol "a")]),
        .lambda ["y__1"] [.app (.lambda ["z"] [.var "y"]) [.app (.var "x") [.var "y__1"]]]] ∧
      (∀ i, (Value.closure i ps b).applyAt 2 args (.given n) =
        Expr.evalSeqAt 1 .empty q (.given ⟨1, n.reserved⟩)) ∧
      Expr.namelessSeq [] q = Nameless.instantiateAll (ls.map (Expr.nameless [])) 0
        (Expr.namelessSeq (Context.bind ps []) b) ∧
      Expr.ValidAll p ∧ Expr.AlphaEqSeq p q := by
  intro ps b args ls n q p
  have hwf : (Expr.lambda ps b).WellFormed := by
    simp [ps, b, Expr.WellFormed, Expr.Every, Expr.EveryAll, Expr.NodeWellFormed,
      Expr.isDefinition]
  have hls : Value.literals? args = .ok ls := rfl
  have hb : (Expr.lambda ps b).NamesWithin n.Covers := by
    simp [ps, b, n, Expr.NamesWithin, Expr.Every, Expr.EveryAll, Expr.NodeNames, NameSupply.Covers,
      NameSupply.start]
  have hargs : ∀ l ∈ ls, l.NamesWithin n.Covers := by
    simp [ls, n, Expr.NamesWithin, Expr.Every, Expr.EveryAll, Expr.NodeNames, NameSupply.Covers,
      NameSupply.start]
  have hp : Expr.ValidAll p := by
    simp [p, Expr.ValidAll, Expr.Valid, Expr.NodeWellFormed, Expr.isDefinition, Value.isDict,
      Value.Valid]
  obtain ⟨hcall, hq, halpha⟩ := applyAt_instantiates hwf hls rfl hb hargs
  have hadmits : (Store.given n).Admits b := fun _ =>
    NameSupply.within_of_counter_lt (by decide) (by decide +kernel)
  exact ⟨hwf, hls, hb, hargs, rfl, fun i => (hcall 1 i (.given n) rfl).1 hadmits, hq, hp,
    halpha p hp rfl⟩

/-- **At the digit limit no sequence is built**: the one lambda in the body cannot be renamed. -/
theorem Value.applyAt_last_refused :
    let b : List Expr := [.lambda ["y"] [.var "y"]]
    let n := NameSupply.last (.ofList ["y"])
    (Expr.lambda [] b).WellFormed ∧ Value.literals? [] = .ok [] ∧
      (Expr.lambda [] b).NamesWithin n.Covers ∧
      ∀ depth i, (Value.closure i [] b).applyAt (depth + 1) [] (.given n) =
        some (.error (.abort .longNumber), .given n) := by
  intro b n
  refine ⟨?_, rfl, ?_, fun depth i => ?_⟩
  · simp [b, Expr.WellFormed, Expr.Every, Expr.EveryAll, Expr.NodeWellFormed]
  · simp [b, n, Expr.NamesWithin, Expr.Every, Expr.EveryAll, Expr.NodeNames, NameSupply.Covers]
  · have hover : ¬ (Store.given n).Admits b := fun h =>
      NameSupply.not_within_last (NameSupply.counter_lt_fresh n "y") (h rfl)
    exact Simulation.applyAt_closure_not_admitted depth i rfl hover

end Lambdict
