import Lambdict.Proofs.Dictionaries.Runs

/-!
# Dictionaries as maps

A dictionary is built at once, by the primitive or by a literal, and is then bound to again and
again.  Each bind gives a new dictionary and leaves the one before as it is.  What a dictionary
answers is known from this history alone (`Dictionary.BuiltFrom`): the value that a key was bound to
last, or else the first that it was built with (`Dictionary.valueOf`).

The answers do not depend on the store, so what is bound or made later changes none.  And they do
not depend on how the dictionary is kept: the runs of a program on entries and on chains are one.
-/

namespace Lambdict

namespace Dictionary

/-- What a key is bound to after binds, the last of them in front, of a dictionary that was built
with some entries. -/
def valueOf (first : List (String × Value)) : List (String × Value) → String → Option Value
  | [], key => first.lookup key
  | (k, v) :: binds, key => if key = k then some v else valueOf first binds key

/-- What a dictionary answers for a key. -/
def answer (value : Option Value) (key : String) : Except Error Value :=
  match value with
  | some v => .ok v
  | none => .error (.condition (.keyNotFound key))

/-- **How a dictionary came about**: from the entries that it was built with, in the order in which
they were given, and from the binds since then, the last of them in front. -/
inductive BuiltFrom : List (String × Value) → List (String × Value) → Value → Prop
  /-- By the primitive, from pairs. -/
  | call {args : List Value} {first : List (String × Value)} {d : Value} {s t : Store}
      (hargs : List.Forall₂ Value.IsPairOf args first)
      (hd : Primitive.apply .dict args s = some (.ok d, t)) : BuiltFrom first [] d
  /-- By a literal, from the values of its expressions. -/
  | literal {apply : Applier} {env : Environment} {es : List (String × Expr)}
      {first : List (String × Value)} {d : Value} {s s' t : Store}
      (hes : Expr.evalEntriesWith apply env es s = some (.ok first, s'))
      (hd : (Expr.dict es).evalWith apply env s = some (.ok d, t)) : BuiltFrom first [] d
  | bind {first binds : List (String × Value)} {d d' v : Value} {k : String} {s t : Store}
      (h : BuiltFrom first binds d)
      (hd : Primitive.apply .bind [d, .symbol k, v] s = some (.ok d', t)) :
      BuiltFrom first ((k, v) :: binds) d'

theorem lookup_append (first binds : List (String × Value)) (key : String) :
    (binds ++ first).lookup key = valueOf first binds key := by
  induction binds with
  | nil => rfl
  | cons p binds ih =>
    obtain ⟨k, v⟩ := p
    by_cases h : key = k
    · simp [valueOf, h]
    · have hne : (key == k) = false := by simpa using h
      rw [List.cons_append, List.lookup_cons, hne]
      simp only [valueOf, if_neg h]
      exact ih

/-- A dictionary has the entries that its history gives it, those bound last in front. -/
theorem BuiltFrom.entries {first binds : List (String × Value)} {d : Value}
    (h : BuiltFrom first binds d) : ∃ i, d = .dict i (binds ++ first) := by
  induction h with
  | call hargs hd =>
    simp only [Primitive.apply, Value.mapM_entry?_eq_some_iff.2 hargs] at hd
    cases hd
    exact ⟨_, rfl⟩
  | literal hes hd =>
    rw [Expr.evalWith, Eval.bind_apply, hes] at hd
    cases hd
    exact ⟨_, rfl⟩
  | bind _ hd ih =>
    obtain ⟨i, rfl⟩ := ih
    cases hd
    exact ⟨_, rfl⟩

theorem get_dict (i : Identity) (es : List (String × Value)) (key : String) (s : Store) :
    Primitive.apply .get [.dict i es, .symbol key] s = some (answer (es.lookup key) key, s) := by
  have hget : Primitive.apply .get [.dict i es, .symbol key] = Primitive.lookupKey es key := rfl
  rw [hget, Primitive.lookupKey]
  cases es.lookup key <;> rfl

/-- Applying a dictionary is getting from it. -/
theorem applyAt_eq_get (i : Identity) (es : List (String × Value)) (key : String) (depth : Nat) :
    (Value.dict i es).applyAt depth [.symbol key] =
      Primitive.apply .get [.dict i es, .symbol key] := by
  cases depth <;> rfl

theorem BuiltFrom.get {first binds : List (String × Value)} {d : Value}
    (h : BuiltFrom first binds d) (key : String) (s : Store) :
    Primitive.apply .get [d, .symbol key] s =
      some (answer (valueOf first binds key) key, s) := by
  obtain ⟨i, rfl⟩ := h.entries
  rw [get_dict, lookup_append]

/-- A bind never fails. -/
theorem BuiltFrom.exists_bind {first binds : List (String × Value)} {d : Value}
    (h : BuiltFrom first binds d) (k : String) (v : Value) (s : Store) :
    ∃ d', Primitive.apply .bind [d, .symbol k, v] s = some (.ok d', s.next) ∧
      BuiltFrom first ((k, v) :: binds) d' := by
  obtain ⟨i, rfl⟩ := h.entries
  exact ⟨.dict (.made s.made) ((k, v) :: (binds ++ first)), rfl, .bind (s := s) h rfl⟩

/-- Any entries can be built with. -/
theorem exists_builtFrom (first : List (String × Value)) (s : Store) :
    ∃ d, Primitive.apply .dict (Value.pairsOf first) s = some (.ok d, s.next) ∧
      BuiltFrom first [] d := by
  have hd : Primitive.apply .dict (Value.pairsOf first) s =
      some (.ok (.dict (.made s.made) first), s.next) := by
    rw [← Primitive.newDict_eq_apply]
    rfl
  exact ⟨_, hd, .call (Value.forall₂_pairsOf first) hd⟩

/-- **Dictionaries are persistent maps, kept as chains of entries.**

A program that was read, desugared or not, runs alike on entries and on chains, to any depth: every
dictionary of the run has a chain of pairs with symbols in front that ends in the empty list, and no
head is read that is not there.

And whatever entries a dictionary was built with, by the primitive or by a literal, and whatever was
bound since: to get a key, or to apply the dictionary to it, gives in every store the value that the
key was bound to last, or else the first that it was built with, or else the condition that the key
is not found.  A bind gives a dictionary that has the new value for its key and the old answers for
all others, and the dictionary that was there keeps its answers. -/
theorem refines_map :
    (∀ (text : String) (p : List Expr), parseProgram text = .ok p → ∀ strategy : Strategy,
      ∀ q ∈ [p, Expr.desugarAll strategy p], ∀ depth : Nat,
        Ends Value.Chained ⟨default, []⟩ (runProgram depth q) (runOnChains depth q)) ∧
    (∀ (first binds : List (String × Value)) (d : Value), BuiltFrom first binds d →
      (∀ (key : String) (s : Store),
        Primitive.apply .get [d, .symbol key] s =
          some (answer (valueOf first binds key) key, s) ∧
        ∀ depth : Nat, d.applyAt depth [.symbol key] s =
          some (answer (valueOf first binds key) key, s)) ∧
      ∀ (k : String) (v : Value) (s : Store), ∃ d',
        Primitive.apply .bind [d, .symbol k, v] s = some (.ok d', s.next) ∧
        ∀ (key : String) (t : Store),
          Primitive.apply .get [d', .symbol key] t =
            (if key = k then some (.ok v, t) else Primitive.apply .get [d, .symbol key] t) ∧
          (Primitive.apply .get [d, .symbol key] t).map Prod.fst =
            (Primitive.apply .get [d, .symbol key] s).map Prod.fst) := by
  constructor
  · intro text p hparse strategy q hq depth
    have hp := parseProgram_sound hparse
    rcases List.mem_cons.1 hq with rfl | hq
    · exact runOnChains_follows hp depth
    · obtain rfl := List.mem_singleton.1 hq
      exact runOnChains_follows (Expr.EveryAll.desugar strategy hp) depth
  · intro first binds d hbuilt
    refine ⟨fun key s => ⟨hbuilt.get key s, fun depth => ?_⟩, fun k v s => ?_⟩
    · obtain ⟨i, rfl⟩ := hbuilt.entries
      rw [applyAt_eq_get]
      exact hbuilt.get key s
    · obtain ⟨d', hbind, hbuilt'⟩ := hbuilt.exists_bind k v s
      refine ⟨d', hbind, fun key t => ⟨?_, ?_⟩⟩
      · rw [hbuilt'.get, hbuilt.get, valueOf]
        split <;> rfl
      · rw [hbuilt.get, hbuilt.get]
        rfl

/-- A key that was built with twice is bound once more, and another is in the program of a run. -/
theorem refines_map_rebound :
    let one : Value := .number (.int 1)
    let two : Value := .number (.int 2)
    let p : List Expr := [.app (.prim .get) [.dict [("a", .number (.int 1))], .quote (.symbol "b")]]
    parseProgram "(get (dict (a 1)) 'b)" = .ok p ∧
      Ends Value.Chained ⟨default, []⟩ (runProgram 0 p) (runOnChains 0 p) ∧
      (runProgram 0 p).map Prod.fst = some (.error (.condition (.keyNotFound "b"))) ∧
      ∃ d s, BuiltFrom [("a", one), ("a", two)] [] d ∧
        Primitive.apply .get [d, .symbol "a"] s = some (.ok one, s) ∧
        ∃ d' t, BuiltFrom [("a", one), ("a", two)] [("a", two)] d' ∧
          Primitive.apply .get [d', .symbol "a"] t = some (.ok two, t) ∧
          Primitive.apply .get [d, .symbol "a"] t = some (.ok one, t) := by
  intro one two p
  have hp : parseProgram "(get (dict (a 1)) 'b)" = .ok p := rfl
  obtain ⟨d, -, hd⟩ := exists_builtFrom [("a", one), ("a", two)] (.start (.start ∅))
  obtain ⟨d', -, hd'⟩ := hd.exists_bind "a" two (.start (.start ∅))
  refine ⟨hp, refines_map.1 _ p hp .construct p (by simp) 0, rfl, d, _, hd,
    ((refines_map.2 _ _ d hd).1 "a" (.start (.start ∅))).1, d', _, hd',
    ((refines_map.2 _ _ d' hd').1 "a" (.start (.start ∅))).1,
    ((refines_map.2 _ _ d hd).1 "a" _).1⟩

end Dictionary

end Lambdict
