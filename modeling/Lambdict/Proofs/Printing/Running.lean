import Lambdict.Proofs.Construct
import Lambdict.Proofs.Lookup
import Lambdict.Proofs.Printing.RoundTrip

/-!
# Running what was printed

A desugared program that is printed and read again comes to the same as the program it was made
from (`renderProgram_comes_to_same`), if all its lines are plain and it is not taken for a wrapped
program.  What is read differs from what was printed in empty dictionary literals only, and to
desugar these by *construct* gives back what was printed (`Expr.desugarAll_emptyDictsAll`).  So both
programs come to the same as the printed one.

Other programs may be printed as a text that says something else or nothing
(`renderProgram_says_other`).
-/

namespace Lambdict

open Lambdict.Expr (desugarAll emptyDictsAll)

/-! ## What is read desugars to what was printed -/

namespace Expr

mutual

/-- Empty literals for calls of `dict` without operands desugar to these calls again. -/
theorem desugar_emptyDicts : ∀ {e : Expr}, e.hasSugar = false → e.emptyDicts.desugar .construct = e
  | .app f es, h => by
    rw [hasSugar, Bool.or_eq_false_iff] at h
    by_cases hdict : f = .prim .dict ∧ es = []
    · obtain ⟨rfl, rfl⟩ := hdict
      rfl
    · rw [emptyDicts_app fun hf hes => hdict ⟨hf, hes⟩, desugar_app_construct,
        desugar_emptyDicts h.1, desugarAll_emptyDictsAll h.2]
  | .cond t c a, h => by
    simp only [hasSugar, Bool.or_eq_false_iff] at h
    rw [emptyDicts, desugar, desugar_emptyDicts h.1.1, desugar_emptyDicts h.1.2,
      desugar_emptyDicts h.2]
  | .lambda ps b, h => by rw [emptyDicts, desugar, desugarAll_emptyDictsAll h]
  | .define x e, h => by
    rw [hasSugar] at h
    rw [emptyDicts, desugar, desugar_emptyDicts h]
  | .dict _, h => nomatch h
  | .number _, _ | .boolean _, _ | .string _, _ | .var _, _ | .prim _, _ | .quote _, _
  | .foreign _, _ => rfl

theorem desugarAll_emptyDictsAll : ∀ {es : List Expr}, hasSugarAny es = false →
    desugarAll .construct (emptyDictsAll es) = es
  | [], _ => rfl
  | e :: es, h => by
    rw [hasSugarAny, Bool.or_eq_false_iff] at h
    rw [emptyDictsAll, desugarAll, desugar_emptyDicts h.1, desugarAll_emptyDictsAll h.2]

end

end Expr

/-! ## Programs that come to the same -/

/-- **Two programs come to the same**: if one of them comes to an end, so does the other, and the
ends are related. -/
def ComeToSame (E : Except Error Value → Except Error Value → Prop) (p q : List Expr) : Prop :=
  (∀ r, ComesTo p r → ∃ r', ComesTo q r' ∧ E r.1 r'.1) ∧
    ∀ r', ComesTo q r' → ∃ r, ComesTo p r ∧ E r.1 r'.1

variable {E F G : Except Error Value → Except Error Value → Prop} {p q d : List Expr}

/-- A second program that follows a first comes to the same. -/
theorem ComeToSame.of_follows
    (h : ∀ depth, (runProgram depth p = none → runProgram depth q = none) ∧
      ∀ r, runProgram depth p = some r → ∃ r', ComesTo q r' ∧ E r.1 r'.1) : ComeToSame E p q := by
  refine ⟨fun r ⟨depth, hr⟩ => (h depth).2 r hr, ?_⟩
  rintro r' ⟨depth, hr'⟩
  obtain ⟨hnone, hsome⟩ := h depth
  cases hr : runProgram depth p with
  | none =>
    rw [hnone hr] at hr'
    cases hr'
  | some r =>
    obtain ⟨r'', hr'', hends⟩ := hsome r hr
    obtain rfl := hr''.unique ⟨depth, hr'⟩
    exact ⟨r, ⟨depth, hr⟩, hends⟩

/-- Two programs that come to the same as a third. -/
theorem ComeToSame.trans_symm (hp : ComeToSame E p d) (hq : ComeToSame F q d)
    (h : ∀ {r r' t}, E r t → F r' t → G r r') : ComeToSame G p q := by
  constructor
  · intro r hr
    obtain ⟨t, ht, hE⟩ := hp.1 r hr
    obtain ⟨r', hr', hF⟩ := hq.2 t ht
    exact ⟨r', hr', h hE hF⟩
  · intro r' hr'
    obtain ⟨t, ht, hF⟩ := hq.1 r' hr'
    obtain ⟨r, hr, hE⟩ := hp.2 t ht
    exact ⟨r, hr, h hE hF⟩

theorem Agree.trans_symm {α β γ : Type} {R : α → γ → Prop} {Q : β → γ → Prop} {S : α → β → Prop}
    {r : Except Error α} {r' : Except Error β} {t : Except Error γ} (h : Agree R r t)
    (h' : Agree Q r' t) (hS : ∀ {a b c}, R a c → Q b c → S a b) : Agree S r r' := by
  cases h with
  | ok hr =>
    cases h' with
    | ok hq => exact .ok (hS hr hq)
  | error he =>
    cases h' with
    | error he' => exact .error (he.trans he'.symm)

/-- A program comes to the same as its expansion by *construct*. -/
theorem comeToSame_construct (hp : Expr.EveryAll Expr.NodeReadable p) :
    ComeToSame (Agree fun v v' => v' = v.expand .construct) p (desugarAll .construct p) := by
  refine .of_follows fun depth => ?_
  have hrel := runProgram_desugar hp depth
  constructor
  · intro hnone
    rw [hnone] at hrel
    cases hd : runProgram depth (desugarAll .construct p) with
    | none => rfl
    | some r' =>
      rw [hd] at hrel
      cases hrel
  · intro r hr
    rw [hr] at hrel
    cases hd : runProgram depth (desugarAll .construct p) with
    | none =>
      rw [hd] at hrel
      cases hrel
    | some r' =>
      rw [hd] at hrel
      cases hrel with
      | some hends => exact ⟨r', ⟨depth, hd⟩, hends.1⟩

/-- **The value of a program and that of its printed expansion**: the same once both are expanded,
and up to alpha-equivalence where a search has drawn names. -/
def Strategy.SameValue : Strategy → Value → Value → Prop
  | .construct, v, v' => v.expand .construct = v'.expand .construct
  | .lookup, v, v' => (v.expand .lookup).AlphaEq (v'.expand .construct)

/-- A program comes to the same as another that desugars by *construct* to what it desugars to. -/
theorem comeToSame_of_desugar {strategy : Strategy} (hp : Expr.EveryAll Expr.NodeSound p)
    (hq : Expr.EveryAll Expr.NodeSound q)
    (h : desugarAll .construct q = desugarAll strategy p) :
    ComeToSame (Agree strategy.SameValue) p q := by
  have hsame := comeToSame_construct (hq.imp fun _ h => h.2)
  rw [h] at hsame
  cases strategy with
  | construct =>
    have hconstruct := comeToSame_construct (hp.imp fun _ h => h.2)
    exact hconstruct.trans_symm hsame fun hr hr' =>
      hr.trans_symm hr' fun hv hv' => hv.symm.trans hv'
  | lookup =>
    have hlookup : ComeToSame (Agree fun v v' => (v.expand .lookup).AlphaEq v') p
        (desugarAll .lookup p) :=
      .of_follows fun depth => runProgram_desugar_lookup hp depth
    refine hlookup.trans_symm hsame fun hr hr' => hr.trans_symm hr' fun hv hv' => ?_
    rw [hv'] at hv
    exact hv

/-- **A desugared program that is printed can be run in place of the program.**  For a program of
plain lines that is not taken for a wrapped program the text is made and can be read, and what is
read comes to the same: the same value up to expansion and alpha-equivalence, a condition of the
same kind, or the same abort. -/
theorem renderProgram_comes_to_same {s : String} {p : List Expr} (h : parseProgram s = .ok p)
    (hp : ∀ e ∈ p, e.PlainLine) (hwrap : ∀ es, p ≠ [.app (.var "L32") es]) (strategy : Strategy) :
    ∃ t q, renderProgram (desugarAll strategy p) = .ok t ∧ parseProgram t = .ok q ∧
      ComeToSame (Agree strategy.SameValue) p q := by
  obtain ⟨t, ht, hq⟩ := renderProgram_desugar h hp hwrap strategy
  refine ⟨t, _, ht, hq, ?_⟩
  exact comeToSame_of_desugar (parseProgram_sound h) (parseProgram_sound hq)
    (Expr.desugarAll_emptyDictsAll (Expr.hasSugarAny_desugarAll strategy p))

/-- A key that is looked up in a literal under a lambda, printed as a search. -/
theorem renderProgram_comes_to_same_search :
    let p : List Expr := [.app (.lambda ["k"] [.app (.dict [("a", .boolean true)]) [.var "k"]])
      [.quote (.symbol "a")]]
    parseProgram "((lambda (k) ((dict (a #t)) k)) 'a)" = .ok p ∧
      ∃ t q r', renderProgram (desugarAll .lookup p) = .ok t ∧ parseProgram t = .ok q ∧
        ComesTo q r' ∧ Agree Strategy.lookup.SameValue (.ok (.boolean true)) r'.1 := by
  intro p
  have h : parseProgram "((lambda (k) ((dict (a #t)) k)) 'a)" = .ok p := rfl
  have hp : ∀ e ∈ p, e.PlainLine := by
    simp [p, Expr.PlainLine, Expr.Every, Expr.EveryAll, Expr.EveryEntry, Expr.NodePlain,
      Value.Plain]
  have hr : ∃ s, ComesTo p (.ok (.boolean true), s) := ⟨_, 1, rfl⟩
  obtain ⟨s, hs⟩ := hr
  obtain ⟨t, q, ht, hq, hsame⟩ := renderProgram_comes_to_same h hp (by simp [p]) .lookup
  obtain ⟨r', hr', hagree⟩ := hsame.1 _ hs
  exact ⟨h, t, q, r', ht, hq, hr', hagree⟩

/-- **Some texts say something else than the program they were printed from.**  A dot that was
quoted inside quoted data makes a text that cannot be read, and an application of `L32` is read as a
wrapped program, which has a value where the program has none. -/
theorem renderProgram_says_other :
    (∃ p, parseProgram "'(a '.)" = .ok p ∧
      renderProgram (desugarAll .construct p) = .ok "'(a (quote .))" ∧
      parseProgram "'(a (quote .))" = .error (.condition (.malformed .unexpectedClose))) ∧
    ∃ p q, parseProgram "(L32 (L32 #t))" = .ok p ∧
      renderProgram (desugarAll .construct p) = .ok "(L32 #t)" ∧ parseProgram "(L32 #t)" = .ok q ∧
      (runProgram 0 p).map Prod.fst = some (.error (.condition (.unbound "L32"))) ∧
      (runProgram 0 q).map Prod.fst = some (.ok (.boolean true)) :=
  ⟨⟨_, rfl, rfl, rfl⟩,
    [.app (.var "L32") [.boolean true]], [.boolean true], rfl, rfl, rfl, rfl, rfl⟩

end Lambdict
