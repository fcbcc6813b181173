import Lambdict.Proofs.Collected
import Lambdict.Proofs.Equality
import Lambdict.Proofs.OpenNames
import Lambdict.Proofs.Safety.Checks

/-!
# Removing sugar

Desugaring removes all dictionary literals and nothing else (`desugarAll_removes_sugar`).  What it
gives has no sugar (`Expr.hasSugarAny_desugarAll`), and what has no sugar it leaves alone
(`Expr.desugarAll_eq_self`).  So it changes a program exactly if the program has sugar, and a second
time it changes nothing.

The names stay as they are.  An expanded literal refers to what the literal referred to: the lambda
that searches is closed, so it has no *open* name (`Expr.openNamesSeq_desugarAll`).  Its parameters
are collected with the names of the program, which is all that comes in
(`Expr.collects_desugarAll`).
-/

namespace Lambdict

namespace Expr

variable {strategy : Strategy}

/-! ## Sugar -/

theorem hasSugar_call (p : Primitive) (es : List Expr) :
    (Desugar.call p es).hasSugar = hasSugarAny es := by
  simp [Desugar.call, hasSugar]

mutual

/-- No dictionary literal is left. -/
theorem hasSugar_desugar (strategy : Strategy) : ∀ e : Expr, (e.desugar strategy).hasSugar = false
  | .dict es => by rw [desugar, hasSugar_call, hasSugarAny_desugarEntries strategy es]
  | .app f es => by
    have hf := hasSugar_desugar strategy f
    have hes := hasSugarAny_desugarAll strategy es
    rcases app_cases f es with ⟨ds, key, rfl, rfl⟩ | hne
    · rw [desugar, hasSugar_call] at hf
      simp only [desugarAll, hasSugarAny, Bool.or_false] at hes
      cases strategy with
      | construct => simp [desugar, hasSugar, hasSugarAny, hasSugar_call, hf, hes]
      | lookup =>
        have hscanner : Desugar.scanner.hasSugar = false := by decide
        simp [desugar, Desugar.search, hasSugar, hasSugarAny, hasSugar_call, hscanner, hf, hes]
    · rw [desugar_app strategy hne, hasSugar, hf, hes]
      rfl
  | .cond t c a => by
    simp only [desugar, hasSugar, hasSugar_desugar strategy t, hasSugar_desugar strategy c,
      hasSugar_desugar strategy a]
    rfl
  | .lambda ps b => by rw [desugar, hasSugar, hasSugarAny_desugarAll strategy b]
  | .define x e => by rw [desugar, hasSugar, hasSugar_desugar strategy e]
  | .number _ | .boolean _ | .string _ | .var _ | .prim _ | .quote _ | .foreign _ => rfl

/-- **No dictionary literal is left** in a program. -/
theorem hasSugarAny_desugarAll (strategy : Strategy) : ∀ es : List Expr,
    hasSugarAny (desugarAll strategy es) = false
  | [] => rfl
  | e :: es => by
    rw [desugarAll, hasSugarAny, hasSugar_desugar strategy e, hasSugarAny_desugarAll strategy es]
    rfl

theorem hasSugarAny_desugarEntries (strategy : Strategy) : ∀ es : List (String × Expr),
    hasSugarAny (desugarEntries strategy es) = false
  | [] => rfl
  | (k, e) :: es => by
    simp [desugarEntries, hasSugarAny, hasSugar_call, hasSugar, hasSugar_desugar strategy e,
      hasSugarAny_desugarEntries strategy es]

end

mutual

/-- An expression without sugar stays as it is. -/
theorem desugar_eq_self (strategy : Strategy) : ∀ {e : Expr}, e.hasSugar = false →
    e.desugar strategy = e
  | .app f es, h => by
    rw [hasSugar, Bool.or_eq_false_iff] at h
    have hne : ∀ ds key, f = .dict ds → es ≠ [key] := by
      rintro ds key rfl
      exact nomatch h.1
    rw [desugar_app strategy hne, desugar_eq_self strategy h.1, desugarAll_eq_self strategy h.2]
  | .cond t c a, h => by
    simp only [hasSugar, Bool.or_eq_false_iff] at h
    rw [desugar, desugar_eq_self strategy h.1.1, desugar_eq_self strategy h.1.2,
      desugar_eq_self strategy h.2]
  | .lambda ps b, h => by
    rw [hasSugar] at h
    rw [desugar, desugarAll_eq_self strategy h]
  | .define x e, h => by
    rw [hasSugar] at h
    rw [desugar, desugar_eq_self strategy h]
  | .dict _, h => nomatch h
  | .number _, _ | .boolean _, _ | .string _, _ | .var _, _ | .prim _, _ | .quote _, _
  | .foreign _, _ => rfl

/-- **A program without sugar stays as it is.** -/
theorem desugarAll_eq_self (strategy : Strategy) : ∀ {es : List Expr}, hasSugarAny es = false →
    desugarAll strategy es = es
  | [], _ => rfl
  | e :: es, h => by
    rw [hasSugarAny, Bool.or_eq_false_iff] at h
    rw [desugarAll, desugar_eq_self strategy h.1, desugarAll_eq_self strategy h.2]

end

/-! ### Sugar and equality -/

section

variable {same : Number → Number → Bool}

mutual

/-- Equal expressions have sugar or not together. -/
theorem hasSugar_of_equalBy : ∀ {e e' : Expr}, e.equalBy same e' = true →
    e.hasSugar = e'.hasSugar
  | .cond t c a, e', h => by
    cases e' with
    | cond t' c' a' =>
      simp only [equalBy, Bool.and_eq_true] at h
      rw [hasSugar, hasSugar, hasSugar_of_equalBy h.1.1, hasSugar_of_equalBy h.1.2,
        hasSugar_of_equalBy h.2]
    | _ => nomatch h
  | .lambda ps b, e', h => by
    cases e' with
    | lambda ps' b' =>
      simp only [equalBy, Bool.and_eq_true] at h
      rw [hasSugar, hasSugar, hasSugarAny_of_equalAllBy h.2]
    | _ => nomatch h
  | .app f es, e', h => by
    cases e' with
    | app f' es' =>
      simp only [equalBy, Bool.and_eq_true] at h
      rw [hasSugar, hasSugar, hasSugar_of_equalBy h.1, hasSugarAny_of_equalAllBy h.2]
    | _ => nomatch h
  | .define x e, e', h => by
    cases e' with
    | define y d =>
      simp only [equalBy, Bool.and_eq_true] at h
      rw [hasSugar, hasSugar, hasSugar_of_equalBy h.2]
    | _ => nomatch h
  | .dict _, e', h => by cases e' <;> first | rfl | nomatch h
  | .number _, e', h | .boolean _, e', h | .string _, e', h | .var _, e', h | .prim _, e', h
  | .quote _, e', h | .foreign _, e', h => by cases e' <;> first | rfl | nomatch h

theorem hasSugarAny_of_equalAllBy : ∀ {es es' : List Expr}, equalAllBy same es es' = true →
    hasSugarAny es = hasSugarAny es'
  | [], [], _ => rfl
  | e :: es, e' :: es', h => by
    simp only [equalAllBy, Bool.and_eq_true] at h
    rw [hasSugarAny, hasSugarAny, hasSugar_of_equalBy h.1, hasSugarAny_of_equalAllBy h.2]

end

end

end Expr

theorem sameProgram_refl (p : List Expr) : sameProgram p p = true :=
  Expr.equalAllBy_refl Number.sameOrNaN_refl p

/-- **A program that desugaring does not change has no sugar**, and the other way round. -/
theorem sameProgram_desugarAll_iff (strategy : Strategy) {p : List Expr} :
    sameProgram (Expr.desugarAll strategy p) p = true ↔ Expr.hasSugarAny p = false := by
  constructor
  · intro h
    rw [← Expr.hasSugarAny_of_equalAllBy h]
    exact Expr.hasSugarAny_desugarAll strategy p
  · intro h
    rw [Expr.desugarAll_eq_self strategy h]
    exact sameProgram_refl p

theorem Expr.desugarAll_eq_self_iff (strategy : Strategy) {p : List Expr} :
    desugarAll strategy p = p ↔ hasSugarAny p = false := by
  constructor
  · intro h
    rw [← h]
    exact hasSugarAny_desugarAll strategy p
  · exact desugarAll_eq_self strategy

namespace Expr

/-! ## Open names -/

/-- The lambda that searches is closed. -/
theorem openNames_scanner : Desugar.scanner.openNames = [] := rfl

theorem openNames_call (p : Primitive) (es : List Expr) :
    (Desugar.call p es).openNames = openNamesEach es := rfl

theorem openNames_search (pairs : List Expr) (key : Expr) :
    (Desugar.search pairs key).openNames = openNamesEach pairs ++ openNamesEach [key] := by
  simp [Desugar.search, openNames, openNamesEach, openNames_scanner, openNames_call]

mutual

theorem openNames_desugar (strategy : Strategy) : ∀ e : Expr,
    (e.desugar strategy).openNames = e.openNames
  | .dict es => openNamesEach_desugarEntries strategy es
  | .app f es => by
    have hf := openNames_desugar strategy f
    have hes := openNamesEach_desugarAll strategy es
    rcases app_cases f es with ⟨ds, key, rfl, rfl⟩ | hne
    · have hds : openNamesEach (desugarEntries strategy ds) = openNamesEntries ds := hf
      cases strategy with
      | construct => exact congrArg₂ (· ++ ·) hds hes
      | lookup => exact (openNames_search _ _).trans (congrArg₂ (· ++ ·) hds hes)
    · rw [desugar_app strategy hne, openNames, openNames, hf, hes]
  | .cond t c a => by
    rw [desugar, openNames, openNames, openNames_desugar strategy t, openNames_desugar strategy c,
      openNames_desugar strategy a]
  | .lambda ps b => by rw [desugar, openNames, openNames, openNamesSeq_desugarAll strategy b]
  | .define x e => openNames_desugar strategy e
  | .number _ | .boolean _ | .string _ | .var _ | .prim _ | .quote _ | .foreign _ => rfl

/-- **Desugaring keeps the open names of a sequence.** -/
theorem openNamesSeq_desugarAll (strategy : Strategy) : ∀ es : List Expr,
    openNamesSeq (desugarAll strategy es) = openNamesSeq es
  | [] => rfl
  | e :: es => by
    -- a definition binds its name in the rest, on both sides
    by_cases h : e.isDefinition
    · cases e with
      | define x e =>
        have he := openNames_desugar strategy (.define x e)
        rw [desugar, openNames, openNames] at he
        rw [desugarAll, desugar, openNamesSeq, openNamesSeq, he,
          openNamesSeq_desugarAll strategy es]
      | _ => cases h
    · have h : e.isDefinition = false := by simpa using h
      rw [desugarAll, openNamesSeq_cons_of_not_definition h,
        openNamesSeq_cons_of_not_definition ((isDefinition_desugar strategy e).trans h),
        openNames_desugar strategy e, openNamesSeq_desugarAll strategy es]

theorem openNamesEach_desugarAll (strategy : Strategy) : ∀ es : List Expr,
    openNamesEach (desugarAll strategy es) = openNamesEach es
  | [] => rfl
  | e :: es => by
    rw [desugarAll, openNamesEach, openNamesEach, openNames_desugar strategy e,
      openNamesEach_desugarAll strategy es]

theorem openNamesEach_desugarEntries (strategy : Strategy) : ∀ es : List (String × Expr),
    openNamesEach (desugarEntries strategy es) = openNamesEntries es
  | [] => rfl
  | (k, e) :: es => by
    rw [desugarEntries, openNamesEach, openNamesEntries, openNames_call,
      openNamesEach_desugarEntries strategy es, openNamesEach, openNamesEach, openNamesEach,
      openNames, openNames_desugar strategy e, List.append_nil, List.nil_append]

end

end Expr

/-! ## Collected names -/

/-- The names of the parameters that desugaring brings in. -/
def Strategy.addedNames : Strategy → List String
  | .construct => []
  | .lookup => ["self", "entries", "box"]

namespace Expr

theorem addNames_call (p : Primitive) (es : List Expr) (s : NameSet) :
    (Desugar.call p es).addNames s = addNamesAll s es :=
  bind_pure _

/-- The names of a search are those of the key, of the pairs and, twice, of the scanner. -/
theorem addNames_search (pairs : List Expr) (key : Expr) (s : NameSet) :
    (Desugar.search pairs key).addNames s =
      addNamesAll s [key] >>= fun s => addNamesAll s pairs >>=
        (fun s => Desugar.scanner.addNames s) >>= fun s => Desugar.scanner.addNames s := by
  simp only [Desugar.search, addNames, addNamesAll, addNames_call, bind_assoc]
  rfl

theorem addNames_pair (k : String) (e : Expr) (s : NameSet) :
    (Desugar.call .cons [.quote (.symbol k), e]).addNames s = e.addNames s := by
  have hnil : addNamesAll s [] = pure s := rfl
  have hkey : (fun s => (Expr.quote (.symbol k)).addNames s) = pure := rfl
  rw [addNames_call, addNamesAll, addNamesAll, hnil, pure_bind, hkey, bind_pure]

/-- The scanner adds the names of its parameters only. -/
theorem extends_scanner {s t : NameSet} (h : s.Extends Strategy.lookup.addedNames t) :
    ∃ t', Desugar.scanner.addNames t = .ok t' ∧ s.Extends Strategy.lookup.addedNames t' := by
  refine ⟨_, rfl, ?_⟩
  -- one name after the other is put in, and all are names of its parameters
  repeat refine NameSet.Extends.insert_right ?_ (by decide)
  exact h

mutual

/-- **Desugaring adds no names but those of the scanner's parameters.** -/
theorem collects_desugar (strategy : Strategy) : ∀ (e : Expr) {s t : NameSet},
    s.Extends strategy.addedNames t →
      Collects strategy.addedNames (e.addNames s) ((e.desugar strategy).addNames t)
  | .dict es, _, t, h => by
    rw [desugar, addNames_call]
    exact collects_desugarEntries strategy es h
  | .app f es, s, t, h => by
    have hes := collects_desugarAll strategy es h
    have hf {s t : NameSet} (h : s.Extends strategy.addedNames t) := collects_desugar strategy f h
    rcases app_cases f es with ⟨ds, key, rfl, rfl⟩ | hne
    · cases strategy with
      | construct => exact hes.bind fun h => hf h
      | lookup =>
        rw [desugar, addNames_search]
        refine hes.bind fun h => ?_
        have hds := collects_desugarEntries .lookup ds h
        exact (hds.bind_right extends_scanner).bind_right extends_scanner
    · rw [desugar_app strategy hne]
      exact hes.bind fun h => hf h
  | .cond t c a, _, _, h =>
    (collects_desugar strategy a h).bind fun h => (collects_desugar strategy c h).bind fun h =>
      collects_desugar strategy t h
  | .lambda ps b, _, _, h => collects_desugarAll strategy b (h.insertAll ps)
  | .define x e, _, _, h => collects_desugar strategy e (h.insert x)
  | .quote d, _, _, h => collects_addNames (.quote d) h
  | .var x, _, _, h => collects_addNames (.var x) h
  | .number _, _, _, h | .boolean _, _, _, h | .string _, _, _, h | .prim _, _, _, h
  | .foreign _, _, _, h => .ok h

theorem collects_desugarAll (strategy : Strategy) : ∀ (es : List Expr) {s t : NameSet},
    s.Extends strategy.addedNames t →
      Collects strategy.addedNames (addNamesAll s es) (addNamesAll t (desugarAll strategy es))
  | [], _, _, h => .ok h
  | e :: es, _, _, h =>
    (collects_desugarAll strategy es h).bind fun h => collects_desugar strategy e h

theorem collects_desugarEntries (strategy : Strategy) :
    ∀ (es : List (String × Expr)) {s t : NameSet}, s.Extends strategy.addedNames t →
      Collects strategy.addedNames (addNamesEntries s es)
        (addNamesAll t (desugarEntries strategy es))
  | [], _, _, h => .ok h
  | (k, e) :: es, _, _, h => by
    rw [desugarEntries, addNamesAll]
    refine (collects_desugarEntries strategy es h).bind fun h => ?_
    rw [addNames_pair]
    exact collects_desugar strategy e h

end

/-- *Construct* adds no names. -/
theorem addNamesAll_desugar (es : List Expr) (s : NameSet) :
    addNamesAll s (desugarAll .construct es) = addNamesAll s es :=
  (collects_desugarAll .construct es (.refl s)).eq

end Expr

/-! ## Programs -/

/-- **Desugaring removes all sugar and nothing else.**  On well-formed expressions all nodes that it
makes pass their checks, and no dictionary literal is left.  It gives the same program, in the sense
of structural equality too, exactly if there was none before; so to desugar again changes nothing.
The open names stay the same; the names that are collected stay the same under *construct*, and are
at most those of the scanner's parameters more under *lookup*. -/
theorem desugarAll_removes_sugar (strategy : Strategy) {p : List Expr}
    (hp : ∀ e ∈ p, e.WellFormed) :
    Expr.desugarAllChecked strategy p = .ok (Expr.desugarAll strategy p) ∧
    Expr.hasSugarAny (Expr.desugarAll strategy p) = false ∧
    (Expr.desugarAll strategy p = p ↔ Expr.hasSugarAny p = false) ∧
    (sameProgram (Expr.desugarAll strategy p) p = true ↔ Expr.hasSugarAny p = false) ∧
    (∀ again, Expr.desugarAll again (Expr.desugarAll strategy p) = Expr.desugarAll strategy p) ∧
    Expr.openNamesSeq (Expr.desugarAll strategy p) = Expr.openNamesSeq p ∧
    collectNames (Expr.desugarAll .construct p) = collectNames p ∧
    Collects ["self", "entries", "box"] (collectNames p)
      (collectNames (Expr.desugarAll .lookup p)) := by
  have hsugarless := Expr.hasSugarAny_desugarAll strategy p
  have hwell := Expr.EveryAll.desugar_of (Expr.keeps_wellFormed strategy) (Expr.everyAll_iff.2 hp)
  refine ⟨hwell.desugarAllChecked, hsugarless, Expr.desugarAll_eq_self_iff strategy,
    sameProgram_desugarAll_iff strategy, fun again => Expr.desugarAll_eq_self again hsugarless,
    Expr.openNamesSeq_desugarAll strategy p, Expr.addNamesAll_desugar p ∅, ?_⟩
  exact Expr.collects_desugarAll .lookup p (.refl ∅)

/-- A literal is applied to a key, and one of its values is open. -/
theorem desugarAll_removes_sugar_applied :
    let p := [.app (.dict [("a", .var "x")]) [.quote (.symbol "a")]]
    Expr.desugarAllChecked .lookup p = .ok (Expr.desugarAll .lookup p) ∧
      Expr.desugarAll .lookup p ≠ p ∧ Expr.openNamesSeq (Expr.desugarAll .lookup p) = ["x"] := by
  intro p
  have hp : ∀ e ∈ p, e.WellFormed := by
    simp [p, Expr.WellFormed, Expr.Every, Expr.EveryAll, Expr.EveryEntry, Expr.NodeWellFormed,
      Expr.isDefinition, Value.isDict]
  obtain ⟨hchecked, -, hself, -, -, hopen, -⟩ := desugarAll_removes_sugar .lookup hp
  exact ⟨hchecked, mt hself.1 (by decide), hopen⟩

end Lambdict
