import Lambdict.Proofs.Simulation.Basic

/-!
# The searching lambda

A dictionary literal that is applied to a key can be expanded into a search: a lambda that is
applied to itself, to the list of the entries and to the key in a box.  Here the search is run.
Given enough depth, it ends with what the dictionary gives for the key, errors included
(`Desugar.applyAt_scanner`); it draws no names, since its body binds none, and it only makes objects
of its own.
-/

namespace Lambdict

/-- What a dictionary gives for a key. -/
def lookupResult (es : List (String × Value)) : Value → Except Error Value
  | .symbol k =>
    match es.lookup k with
    | some v => .ok v
    | none => .error (.condition (.keyNotFound k))
  | _ => .error (.condition (.dictionaryArguments 1))

theorem lookupResult_cons_pos {k : String} {v key : Value} {es : List (String × Value)}
    (h : Value.atomEqual (.symbol k) key = true) : lookupResult ((k, v) :: es) key = .ok v := by
  cases key with
  | symbol k' =>
    obtain rfl : k = k' := by simpa [Value.atomEqual] using h
    simp [lookupResult]
  | _ => simp [Value.atomEqual] at h

theorem lookupResult_cons_neg {k : String} {v key : Value} {es : List (String × Value)}
    (h : Value.atomEqual (.symbol k) key = false) :
    lookupResult ((k, v) :: es) key = lookupResult es key := by
  cases key with
  | symbol k' =>
    have hk : (k' == k) = false := by
      rw [beq_eq_false_iff_ne]
      intro he
      simp [Value.atomEqual, he] at h
    simp only [lookupResult, List.lookup_cons, hk]
  | _ => rfl

theorem Value.applyAt_dict (depth : Nat) (i : Identity) (es : List (String × Value)) (key : Value)
    (s : Store) : (Value.dict i es).applyAt depth [key] s = some (lookupResult es key, s) := by
  cases key with
  | symbol k =>
    have h : (Value.dict i es).applyAt depth [.symbol k] = Primitive.lookupKey es k := by
      cases depth <;> rfl
    rw [h]
    simp only [Primitive.lookupKey, lookupResult]
    cases es.lookup k <;> rfl
  | _ => cases depth <;> rfl

theorem Value.applyAt_prim (depth : Nat) (p : Primitive) (args : List Value) :
    (Value.prim p).applyAt depth args = p.apply args := by
  cases depth <;> rfl

namespace Value

/-- A value is the pair of an entry: its key stands in front as a symbol. -/
def IsPairOf (w : Value) (p : String × Value) : Prop :=
  ∃ i, w = .pair i (.symbol p.1) p.2

theorem entry?_eq_some_iff {w : Value} {p : String × Value} :
    w.entry? = some p ↔ w.IsPairOf p := by
  constructor
  · intro h
    unfold entry? at h
    split at h
    · obtain rfl := Option.some.inj h
      exact ⟨_, rfl⟩
    · cases h
  · rintro ⟨i, rfl⟩
    rfl

/-- Values that are entries are the pairs of these entries, one by one. -/
theorem mapM_entry?_eq_some_iff {ws : List Value} {es : List (String × Value)} :
    ws.mapM entry? = some es ↔ List.Forall₂ IsPairOf ws es := by
  induction ws generalizing es with
  | nil => simp [eq_comm]
  | cons w ws ih =>
    simp only [List.mapM_cons, Option.bind_eq_bind, Option.bind_eq_some_iff,
      entry?_eq_some_iff, ih, List.forall₂_cons_left_iff, Option.pure_def, Option.some.injEq]
    constructor
    · rintro ⟨p, hp, es', hes', rfl⟩
      exact ⟨p, es', hp, hes', rfl⟩
    · rintro ⟨p, es', hp, hes', rfl⟩
      exact ⟨p, hp, es', hes', rfl⟩

end Value

/-- A list of pairs that spells out the entries of a dictionary. -/
inductive Value.Spells : Value → List (String × Value) → Prop
  | nil : Value.Spells .empty []
  | cons {i j : Identity} {k : String} {v t : Value} {es : List (String × Value)}
      (h : Value.Spells t es) : Value.Spells (.pair i (.pair j (.symbol k) v) t) ((k, v) :: es)

theorem Value.Spells.literal?_eq {v : Value} {es : List (String × Value)} :
    v.Spells es → v.literal? = .ok (.quote v)
  | .nil => rfl
  | .cons _ => rfl

namespace Desugar

/-- The closure that the searching lambda evaluates to. -/
def scannerClosure (i : Identity) (a b c : String) : Value :=
  .closure i [a, b, c] (scan (.var a) (.var b) (.var c))

theorem lambda?_scan {a b c : String} (h : ScannerNames a b c) :
    Expr.lambda? [a, b, c] (scan (.var a) (.var b) (.var c)) = .ok (scannerOf a b c) := by
  obtain ⟨hnodup, hempty⟩ := h
  have he : [a, b, c].any String.isEmpty = false := by
    simp only [List.any_eq_false, String.isEmpty_iff]
    exact fun x hx hxe => hempty (hxe ▸ hx)
  have hc : checkParameters [a, b, c] true = .ok () := by
    simp only [checkParameters, he, hnodup]
    rfl
  simp only [Expr.lambda?, scan, List.isEmpty_cons, Bool.not_false, hc]
  rfl

/-- Renaming leaves the search alone and draws no names: it binds none. -/
theorem renameAll_scan (a b c : String) (s : NameSupply) :
    Expr.renameAll (scan (.var a) (.var b) (.var c)) s =
      (scan (.var a) (.var b) (.var c), s) := by
  simp [scan, call, Expr.renameAll, Expr.rename]

/-- No number is drawn, so the digit limit does not matter. -/
theorem renameBody_scan (a b c : String) (s : Store) :
    Eval.renameBody (scan (.var a) (.var b) (.var c)) s =
      some (.ok (scan (.var a) (.var b) (.var c)), s) := by
  have h : s.Admits (scan (.var a) (.var b) (.var c)) := fun _ => by
    rw [renameAll_scan]
    exact .of_le (Int.le_refl _)
  rw [Eval.renameBody_of_admits h, Store.renaming, renameAll_scan]

theorem substSeq_scan {a b c : String} (h : ScannerNames a b c) (x y z : Expr) :
    Expr.substSeq (.ofLists [a, b, c] [x, y, z]) (scan (.var a) (.var b) (.var c)) =
      scan x y z := by
  obtain ⟨hab, hac, hbc⟩ : a ≠ b ∧ a ≠ c ∧ b ≠ c := by
    have := h.1
    simp only [List.nodup_cons, List.mem_cons, List.not_mem_nil, or_false, not_or] at this
    exact ⟨this.1.1, this.1.2, this.2.1⟩
  have ha : (Substitution.ofLists [a, b, c] [x, y, z]).find? a = some x := by
    simp [Substitution.ofLists, Substitution.find?, List.lookup_cons, beq_eq_false_iff_ne.2 hab,
      beq_eq_false_iff_ne.2 hac]
  have hb : (Substitution.ofLists [a, b, c] [x, y, z]).find? b = some y := by
    simp [Substitution.ofLists, Substitution.find?, List.lookup_cons, beq_eq_false_iff_ne.2 hbc]
  have hc : (Substitution.ofLists [a, b, c] [x, y, z]).find? c = some z := by
    simp [Substitution.ofLists, Substitution.find?]
  simp [scan, call, Expr.substSeq, Expr.subst, Expr.substEach, ha, hb, hc]

variable {a b c a' b' c' : String}

/-- One round of the search: what is evaluated is the body, over the literals of its arguments. -/
theorem applyAt_scanner_succ (h : ScannerNames a b c) (h' : ScannerNames a' b' c') (depth : Nat)
    (i j l : Identity) {entries key : Value} {es : List (String × Value)}
    (hes : entries.Spells es) (s : Store) :
    (scannerClosure i a b c).applyAt (depth + 1)
        [scannerClosure j a' b' c', entries, .pair l key .empty] s =
      Expr.evalSeqWith (Value.applyAt depth) .empty
        (scan (scannerOf a' b' c') (.quote entries) (.quote (.pair l key .empty))) s := by
  have hl : Value.literals? [scannerClosure j a' b' c', entries, .pair l key .empty] =
      .ok [scannerOf a' b' c', .quote entries, .quote (.pair l key .empty)] := by
    have hc : (scannerClosure j a' b' c').literal? = .ok (scannerOf a' b' c') := by
      simp only [scannerClosure, Value.literal?, lambda?_scan h']
      rfl
    simp only [Value.literals?, hc, hes.literal?_eq]
    rfl
  simp only [scannerClosure] at hl ⊢
  rw [Value.applyAt]
  simp only [hl, List.length_cons, List.length_nil, if_true, Eval.bind_apply, renameBody_scan,
    Eval.ofCondition, Except.mapError, Eval.ofExcept, Eval.pure, substSeq_scan h]

/-- **The search ends with what the dictionary gives**, within one level more than there are
entries.  It leaves the supply of names as it is. -/
theorem applyAt_scanner (h : ScannerNames a b c) (h' : ScannerNames a' b' c') {depth : Nat}
    (i j l : Identity) {entries : Value} (key : Value) {es : List (String × Value)}
    (hes : entries.Spells es) (hd : es.length < depth) (s : Store) :
    ∃ n, (scannerClosure i a b c).applyAt depth
        [scannerClosure j a' b' c', entries, .pair l key .empty] s =
      some (lookupResult es key, { s with made := s.made + n }) := by
  induction hes generalizing depth i j s a b c with
  | nil =>
    obtain ⟨depth, rfl⟩ : ∃ m, depth = m + 1 := ⟨depth - 1, by simp at hd; omega⟩
    -- no entry is left: what the empty dictionary says of the key is the answer
    rw [applyAt_scanner_succ h h' depth i j l .nil s]
    refine ⟨1, ?_⟩
    simp [scan, call, Expr.evalSeqWith, Expr.evalWith, Expr.evalEachWith, Value.applyAt_prim,
      Primitive.apply, Primitive.question, Primitive.unary, Primitive.truth, Value.isPair,
      Value.isFalse, Primitive.newDict, Eval.newIdentity, Eval.bind_apply, Value.applyAt_dict]
  | @cons m n k v t es ht ih =>
    obtain ⟨depth, rfl⟩ : ∃ m, depth = m + 1 := ⟨depth - 1, by omega⟩
    rw [applyAt_scanner_succ h h' depth i j l (.cons ht) s]
    -- the first entry with the key ends the search
    by_cases hk : Value.atomEqual (.symbol k) key = true
    · refine ⟨0, ?_⟩
      rw [lookupResult_cons_pos hk]
      simp [scan, call, Expr.evalSeqWith, Expr.evalWith, Expr.evalEachWith, Value.applyAt_prim,
        Primitive.apply, Primitive.question, Primitive.unary, Primitive.binary, Primitive.truth,
        Value.isPair, Value.isFalse, Eval.bind_apply, hk]
    · -- the other entries are searched by the closure that was handed on, applied to itself
      have hd' : es.length < depth := by
        simp only [List.length_cons] at hd
        omega
      rw [lookupResult_cons_neg (by simpa using hk)]
      obtain ⟨n, hn⟩ := ih h' (.made s.made) (.made (s.made + 1)) hd'
        { s with made := s.made + 1 + 1 }
      refine ⟨2 + n, ?_⟩
      have hmade : s.made + (2 + n) = s.made + 1 + 1 + n := by omega
      rw [hmade, ← hn]
      simp [scan, call, scannerOf, scannerClosure, Expr.evalSeqWith, Expr.evalWith,
        Expr.evalEachWith, Value.applyAt_prim, Primitive.apply, Primitive.question,
        Primitive.unary, Primitive.binary, Primitive.truth, Value.isPair, Value.isFalse,
        Eval.bind_apply, Eval.newIdentity, hk]

/-- **The searching lambda applies a dictionary**.  Its closure, applied to itself, to a list of
entries and to a key in a box, ends and does what a dictionary with these entries does when it is
applied to the key, within one level of nested calls more than there are entries.  It gives the same
value, be that a dictionary, a closure or data, or the same condition: that the key is not found, or
that it is no symbol.  The supply of names is left as it is. -/
theorem applyAt_scanner_eq_dict {ps : List String} {body : List Expr}
    (hscanner : scanner = .lambda ps body) {entries : Value} {es : List (String × Value)}
    (hes : entries.Spells es) (key : Value) {depth : Nat} (hd : es.length < depth)
    (i j l m : Identity) (s : Store) :
    ∃ r s',
      (Value.closure i ps body).applyAt depth
          [.closure j ps body, entries, .pair l key .empty] s = some (r, s') ∧
        (Value.dict m es).applyAt depth [key] s = some (r, s) ∧
        s'.names = s.names := by
  have hnames : ScannerNames "self" "entries" "box" := ⟨by decide, by decide⟩
  obtain ⟨rfl, rfl⟩ := Expr.lambda.inj hscanner
  obtain ⟨n, hn⟩ := applyAt_scanner hnames hnames i j l key hes hd s
  exact ⟨lookupResult es key, _, hn, Value.applyAt_dict depth m es key s, rfl⟩

/-- A repeated key gives the first of its values, here a dictionary, and a string is no key. -/
theorem applyAt_scanner_eq_dict_repeated :
    let inner : Value := .dict (.given 0) []
    let self : Value := .closure (.given 1) ["self", "entries", "box"]
      (scan (.var "self") (.var "entries") (.var "box"))
    let pairs : Value := .pair (.given 2) (.pair (.given 3) (.symbol "a") inner)
      (.pair (.given 4) (.pair (.given 5) (.symbol "a") .empty) .empty)
    let es : List (String × Value) := [("a", inner), ("a", .empty)]
    let s : Store := .start (.start ∅)
    pairs.Spells es ∧
      (∃ s', self.applyAt 3 [self, pairs, .pair (.given 6) (.symbol "a") .empty] s =
          some (.ok inner, s') ∧ s'.names = s.names) ∧
      (∃ s', self.applyAt 3 [self, pairs, .pair (.given 6) (.string "a") .empty] s =
          some (.error (.condition (.dictionaryArguments 1)), s') ∧ s'.names = s.names) := by
  intro inner self pairs es s
  have hes : pairs.Spells es := .cons (.cons .nil)
  refine ⟨hes, ?_, ?_⟩
  · obtain ⟨r, s', h, hdict, hs⟩ := applyAt_scanner_eq_dict (by rfl) hes (.symbol "a")
      (show es.length < 3 by decide) (.given 1) (.given 1) (.given 6) (.given 7) s
    obtain ⟨rfl, -⟩ := Prod.mk.inj (Option.some.inj
      (hdict.symm.trans (Value.applyAt_dict 3 (.given 7) es (.symbol "a") s)))
    exact ⟨s', h, hs⟩
  · obtain ⟨r, s', h, hdict, hs⟩ := applyAt_scanner_eq_dict (by rfl) hes (.string "a")
      (show es.length < 3 by decide) (.given 1) (.given 1) (.given 6) (.given 7) s
    obtain ⟨rfl, -⟩ := Prod.mk.inj (Option.some.inj
      (hdict.symm.trans (Value.applyAt_dict 3 (.given 7) es (.string "a") s)))
    exact ⟨s', h, hs⟩

end Desugar

end Lambdict
