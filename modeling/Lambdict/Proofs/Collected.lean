import Lambdict.Proofs.Parsed
import Lambdict.Proofs.Safety.Valid

/-!
# Collected names

The names of a program are collected before it runs, so that they can be reserved.  Collecting may
fail, at quoted data that holds an ill-formed closure; but if it does not, no name outside quoted
data is left out (`collectNames_names`).  What is found does not depend on the names that were there
before (`Expr.collects_addNames`).

On a valid program it does not fail (`collectNames_of_valid`), and it finds the same names wherever
the program is placed (`collectNames_place`).  So a program that was read is ready to run
(`exists_ready`).
-/

namespace Lambdict

open SExpr (exists_of_bind_eq_ok)

/-! ## What is collected -/

mutual

/-- **All names in an expression are added**, to those that there are. -/
theorem Expr.names_of_addNames : ∀ {e : Expr} {acc acc' : NameSet}, e.addNames acc = .ok acc' →
    (∀ x ∈ acc, x ∈ acc') ∧ e.NamesWithin (· ∈ acc')
  | .number _, _, _, h | .boolean _, _, _, h | .string _, _, _, h | .prim _, _, _, h
  | .foreign _, _, _, h => by
    cases h
    exact ⟨fun _ hx => hx, trivial⟩
  | .var x, acc, _, h => by
    cases h
    exact ⟨fun _ hx => NameSet.mem_insert.2 (.inr hx), NameSet.mem_insert.2 (.inl rfl)⟩
  | .quote d, _, _, h => by
    obtain ⟨_, -, h⟩ := exists_of_bind_eq_ok h
    exact ⟨Value.names_of_addNames h, trivial⟩
  | .lambda ps b, _, _, h => by
    obtain ⟨hle, hb⟩ := Expr.names_of_addNamesAll h
    exact ⟨fun x hx => hle x (by simp [hx]), fun p hp => hle p (by simp [hp]), hb⟩
  | .cond t c a, _, _, h => by
    -- names are collected from the last part to the first
    obtain ⟨_, ha, h⟩ := exists_of_bind_eq_ok h
    obtain ⟨_, hc, ht⟩ := exists_of_bind_eq_ok h
    obtain ⟨hle, ha⟩ := Expr.names_of_addNames ha
    obtain ⟨hle₁, hc⟩ := Expr.names_of_addNames hc
    obtain ⟨hle₂, ht⟩ := Expr.names_of_addNames ht
    exact ⟨fun x hx => hle₂ x (hle₁ x (hle x hx)), trivial, ht, hc.imp hle₂,
      ha.imp fun x hx => hle₂ x (hle₁ x hx)⟩
  | .app f es, _, _, h => by
    obtain ⟨_, hes, hf⟩ := exists_of_bind_eq_ok h
    obtain ⟨hle, hes⟩ := Expr.names_of_addNamesAll hes
    obtain ⟨hle₁, hf⟩ := Expr.names_of_addNames hf
    exact ⟨fun x hx => hle₁ x (hle x hx), trivial, hf, Expr.everyAll_names_imp hle₁ hes⟩
  | .define x e, _, _, h => by
    obtain ⟨hle, he⟩ := Expr.names_of_addNames (e := e) h
    exact ⟨fun y hy => hle y (by simp [hy]), hle x (by simp), he⟩
  | .dict es, _, _, h => by
    obtain ⟨hle, hes⟩ := Expr.names_of_addNamesEntries h
    exact ⟨hle, trivial, hes⟩

theorem Expr.names_of_addNamesAll : ∀ {es : List Expr} {acc acc' : NameSet},
    Expr.addNamesAll acc es = .ok acc' →
      (∀ x ∈ acc, x ∈ acc') ∧ Expr.EveryAll (Expr.NodeNames (· ∈ acc')) es
  | [], _, _, h => by
    cases h
    exact ⟨fun _ hx => hx, trivial⟩
  | e :: es, _, _, h => by
    obtain ⟨_, hes, he⟩ := exists_of_bind_eq_ok h
    obtain ⟨hle, hes⟩ := Expr.names_of_addNamesAll hes
    obtain ⟨hle₁, he⟩ := Expr.names_of_addNames he
    exact ⟨fun x hx => hle₁ x (hle x hx), he, Expr.everyAll_names_imp hle₁ hes⟩

theorem Expr.names_of_addNamesEntries : ∀ {es : List (String × Expr)} {acc acc' : NameSet},
    Expr.addNamesEntries acc es = .ok acc' →
      (∀ x ∈ acc, x ∈ acc') ∧ Expr.EveryEntry (Expr.NodeNames (· ∈ acc')) es
  | [], _, _, h => by
    cases h
    exact ⟨fun _ hx => hx, trivial⟩
  | (_, e) :: es, _, _, h => by
    obtain ⟨_, hes, he⟩ := exists_of_bind_eq_ok h
    obtain ⟨hle, hes⟩ := Expr.names_of_addNamesEntries hes
    obtain ⟨hle₁, he⟩ := Expr.names_of_addNames he
    exact ⟨fun x hx => hle₁ x (hle x hx), he, Expr.EveryEntry.imp (Expr.NodeNames.imp hle₁) hes⟩

/-- Quoted data only adds names. -/
theorem Value.names_of_addNames : ∀ {d : Value} {acc acc' : NameSet},
    d.addNames acc = .ok acc' → ∀ x ∈ acc, x ∈ acc'
  | .pair _ h t, _, _, hd, x, hx => by
    obtain ⟨_, hh, ht⟩ := exists_of_bind_eq_ok hd
    exact Value.names_of_addNames ht x (Value.names_of_addNames hh x hx)
  | .closure _ ps b, _, _, h, x, hx => (Expr.names_of_addNamesAll h).1 x (by simp [hx])
  | .nothing, _, _, h, _, hx | .number _, _, _, h, _, hx | .boolean _, _, _, h, _, hx
  | .string _, _, _, h, _, hx | .symbol _, _, _, h, _, hx | .empty, _, _, h, _, hx
  | .prim _, _, _, h, _, hx | .dict _ _, _, _, h, _, hx | .code _ _, _, _, h, _, hx
  | .sequence _ _, _, _, h, _, hx => by
    cases h
    exact hx

end

/-- **If the names of a program can be collected**, every name in it outside quoted data is. -/
theorem collectNames_names {p : List Expr} {names : NameSet} (h : collectNames p = .ok names) :
    Expr.EveryAll (Expr.NodeNames (· ∈ names)) p :=
  (Expr.names_of_addNamesAll h).2

/-! ## Collecting into two sets -/

/-- One set has all names of another, and beside these only extra ones. -/
structure NameSet.Extends (extra : List String) (s t : NameSet) : Prop where
  mem : ∀ x ∈ s, x ∈ t
  mem_or : ∀ x ∈ t, x ∈ s ∨ x ∈ extra

/-- **Two collections compared**: both fail, with one fault, or the second finds what the first does
and beside it only extra names. -/
inductive Collects (extra : List String) :
    Except Malformed NameSet → Except Malformed NameSet → Prop
  | ok {s t : NameSet} (h : s.Extends extra t) : Collects extra (.ok s) (.ok t)
  | error (fault : Malformed) : Collects extra (.error fault) (.error fault)

section

variable {extra : List String}

theorem NameSet.Extends.refl (s : NameSet) : s.Extends extra s :=
  ⟨fun _ hx => hx, fun _ hx => .inl hx⟩

/-- A set that extends another goes on to when both get the same names. -/
theorem NameSet.Extends.insertAll {s t : NameSet} (h : s.Extends extra t) (xs : List String) :
    (s.insertAll xs).Extends extra (t.insertAll xs) := by
  constructor <;> intro x hx <;> rw [NameSet.mem_insertAll] at hx ⊢
  · exact hx.imp_left (h.mem x)
  · rcases hx with hx | hx
    · exact (h.mem_or x hx).imp_left .inl
    · exact .inl (.inr hx)

theorem NameSet.Extends.insert {s t : NameSet} (h : s.Extends extra t) (x : String) :
    (s.insert x).Extends extra (t.insert x) :=
  h.insertAll [x]

/-- A set may get extra names and still extend another. -/
theorem NameSet.Extends.insert_right {s t : NameSet} (h : s.Extends extra t) {x : String}
    (hx : x ∈ extra) : s.Extends extra (t.insert x) := by
  refine ⟨fun y hy => NameSet.mem_insert.2 (.inr (h.mem y hy)), fun y hy => ?_⟩
  rcases NameSet.mem_insert.1 hy with rfl | hy
  · exact .inr hx
  · exact h.mem_or y hy

/-- Without extra names the two sets are one. -/
theorem NameSet.Extends.eq {s t : NameSet} (h : s.Extends [] t) : t = s :=
  NameSet.ext fun x => ⟨fun hx => (h.mem_or x hx).resolve_right List.not_mem_nil, h.mem x⟩

/-- Where nothing is extra the names are the same. -/
theorem Collects.eq {r r' : Except Malformed NameSet} (h : Collects [] r r') : r' = r := by
  cases h with
  | ok h => rw [h.eq]
  | error => rfl

/-- Names may be collected from one thing after another. -/
theorem Collects.bind {r r' : Except Malformed NameSet}
    {f f' : NameSet → Except Malformed NameSet} (h : Collects extra r r')
    (hf : ∀ {s t : NameSet}, s.Extends extra t → Collects extra (f s) (f' t)) :
    Collects extra (r >>= f) (r' >>= f') := by
  cases h with
  | ok h => exact hf h
  | error fault => exact .error fault

/-- The second collection may go on by itself, as long as it finds extra names only. -/
theorem Collects.bind_right {r r' : Except Malformed NameSet}
    {f : NameSet → Except Malformed NameSet} (h : Collects extra r r')
    (hf : ∀ {s t : NameSet}, s.Extends extra t → ∃ t', f t = .ok t' ∧ s.Extends extra t') :
    Collects extra r (r' >>= f) := by
  cases h with
  | @ok _ t h =>
    obtain ⟨t', ht, h⟩ := hf h
    show Collects extra _ (f t)
    rw [ht]
    exact .ok h
  | error fault => exact .error fault

mutual

/-- **What is collected does not depend on what there was before.** -/
theorem Expr.collects_addNames : ∀ (e : Expr) {s t : NameSet}, s.Extends extra t →
    Collects extra (e.addNames s) (e.addNames t)
  | .var x, _, _, h => .ok (h.insert x)
  | .lambda ps b, _, _, h => Expr.collects_addNamesAll b (h.insertAll ps)
  | .cond t c a, _, _, h =>
    (Expr.collects_addNames a h).bind fun h => (Expr.collects_addNames c h).bind fun h =>
      Expr.collects_addNames t h
  | .app f es, _, _, h =>
    (Expr.collects_addNamesAll es h).bind fun h => Expr.collects_addNames f h
  | .define x e, _, _, h => Expr.collects_addNames e (h.insert x)
  | .dict es, _, _, h => Expr.collects_addNamesEntries es h
  | .quote d, _, _, h => by
    simp only [Expr.addNames]
    cases d.checkClosures with
    | error fault => exact .error fault
    | ok => exact Value.collects_addNames d h
  | .number _, _, _, h | .boolean _, _, _, h | .string _, _, _, h | .prim _, _, _, h
  | .foreign _, _, _, h => .ok h

/-- A sequence adds the same names to a set that has extra ones. -/
theorem Expr.collects_addNamesAll : ∀ (es : List Expr) {s t : NameSet}, s.Extends extra t →
    Collects extra (Expr.addNamesAll s es) (Expr.addNamesAll t es)
  | [], _, _, h => .ok h
  | e :: es, _, _, h =>
    (Expr.collects_addNamesAll es h).bind fun h => Expr.collects_addNames e h

theorem Expr.collects_addNamesEntries : ∀ (es : List (String × Expr)) {s t : NameSet},
    s.Extends extra t → Collects extra (Expr.addNamesEntries s es) (Expr.addNamesEntries t es)
  | [], _, _, h => .ok h
  | (_, e) :: es, _, _, h =>
    (Expr.collects_addNamesEntries es h).bind fun h => Expr.collects_addNames e h

/-- Data adds the same names to a set that has extra ones. -/
theorem Value.collects_addNames : ∀ (d : Value) {s t : NameSet}, s.Extends extra t →
    Collects extra (d.addNames s) (d.addNames t)
  | .pair _ hd tl, _, _, h =>
    (Value.collects_addNames hd h).bind fun h => Value.collects_addNames tl h
  | .closure _ ps b, _, _, h => Expr.collects_addNamesAll b (h.insertAll ps)
  | .nothing, _, _, h | .number _, _, _, h | .boolean _, _, _, h | .string _, _, _, h
  | .symbol _, _, _, h | .empty, _, _, h | .prim _, _, _, h | .dict _ _, _, _, h
  | .code _ _, _, _, h | .sequence _ _, _, _, h => .ok h

end

end

/-! ## Collecting from valid expressions -/

namespace Expr

theorem isProper_place (e : Expr) (n : Nat) : (e.place n).1.isProper = e.isProper := by
  cases e <;> rfl

/-- A valid program has nothing but expressions in it when it is placed. -/
theorem ValidAll.proper_place {es : List Expr} (h : ValidAll es) (n : Nat) :
    (placeAll n es).1.find? (!·.isProper) = none := by
  induction es generalizing n with
  | nil => rfl
  | cons e es ih =>
    simp only [placeAll, List.find?_cons, isProper_place, h.1.proper, Bool.not_true, ih h.2]

/-- The lambda that a valid closure turns into, wherever it is placed. -/
theorem lambda?_place {ps : List String} {b : List Expr} (hp : NodeWellFormed (.lambda ps b))
    (hb : ValidAll b) (n : Nat) :
    lambda? ps (placeAll n b).1 = .ok (.lambda ps (placeAll n b).1) := by
  have hnode : NodeWellFormed (.lambda ps (placeAll n b).1) :=
    ⟨hp.1, hp.2.1, placeAll_ne_nil n hp.2.2⟩
  simp only [lambda?, checkParameters_of_wellFormed hnode, hb.proper_place n]
  rfl

end Expr

/-- The closures in valid data pass their checks. -/
theorem Value.Valid.checkClosures : ∀ {d : Value}, d.Valid → d.checkClosures = .ok ()
  | .pair _ h t, hd => by
    simp only [Value.checkClosures, checkClosures hd.1, checkClosures hd.2]
    rfl
  | .closure _ ps b, hd => by
    simp only [Value.checkClosures, Expr.Valid.lambda? hd]
    rfl
  | .number _, _ | .boolean _, _ | .string _, _ | .symbol _, _ | .empty, _ | .prim _, _
  | .dict _ _, _ => rfl

theorem Value.Valid.checkClosures_place : ∀ {d : Value}, d.Valid → ∀ n,
    (d.place n).1.checkClosures = .ok ()
  | .pair _ h t, hd, n => by
    simp only [Value.place, Value.checkClosures, checkClosures_place hd.1, checkClosures_place hd.2]
    rfl
  | .closure _ ps b, hd, n => by
    simp only [Value.place, Value.checkClosures, Expr.lambda?_place hd.1 hd.2]
    rfl
  | .number _, _, _ | .boolean _, _, _ | .string _, _, _ | .symbol _, _, _ | .empty, _, _
  | .prim _, _, _ | .dict _ _, _, _ => rfl

mutual

/-- **The names of a valid expression can be added**, and placing changes none. -/
theorem Expr.Valid.addNames : ∀ {e : Expr}, e.Valid → ∀ acc, ∃ acc', e.addNames acc = .ok acc' ∧
    ∀ n, (e.place n).1.addNames acc = .ok acc'
  | .number _, _, acc | .boolean _, _, acc | .string _, _, acc | .prim _, _, acc =>
    ⟨acc, rfl, fun _ => rfl⟩
  | .var x, _, acc => ⟨acc.insert x, rfl, fun _ => rfl⟩
  | .lambda ps b, he, acc => Expr.ValidAll.addNames he.2 (acc.insertAll ps)
  | .define x e, he, acc => Expr.Valid.addNames he.2 (acc.insert x)
  | .dict es, he, acc => Expr.ValidEntries.addNames he.2 acc
  | .quote d, he, acc => by
    obtain ⟨acc', hd, hplaced⟩ := Value.Valid.addNames he.2 acc
    refine ⟨acc', ?_, fun n => ?_⟩
    · simp only [Expr.addNames, he.2.checkClosures]
      exact hd
    · simp only [Expr.place, Expr.addNames, he.2.checkClosures_place]
      exact hplaced n
  | .cond t c a, he, acc => by
    -- names are collected from the last part to the first
    obtain ⟨acc₁, ha, ha'⟩ := Expr.Valid.addNames he.2.2.2 acc
    obtain ⟨acc₂, hc, hc'⟩ := Expr.Valid.addNames he.2.2.1 acc₁
    obtain ⟨acc₃, ht, ht'⟩ := Expr.Valid.addNames he.2.1 acc₂
    refine ⟨acc₃, ?_, fun n => ?_⟩
    · simp only [Expr.addNames, ha, hc, ht, bind, Except.bind]
    · simp only [Expr.place, Expr.addNames, ha', hc', ht', bind, Except.bind]
  | .app f es, he, acc => by
    obtain ⟨acc₁, hes, hes'⟩ := Expr.ValidAll.addNames he.2.2 acc
    obtain ⟨acc₂, hf, hf'⟩ := Expr.Valid.addNames he.2.1 acc₁
    refine ⟨acc₂, ?_, fun n => ?_⟩
    · simp only [Expr.addNames, hes, hf, bind, Except.bind]
    · simp only [Expr.place, Expr.addNames, hes', hf', bind, Except.bind]

theorem Expr.ValidAll.addNames : ∀ {es : List Expr}, Expr.ValidAll es → ∀ acc,
    ∃ acc', Expr.addNamesAll acc es = .ok acc' ∧
      ∀ n, Expr.addNamesAll acc (Expr.placeAll n es).1 = .ok acc'
  | [], _, acc => ⟨acc, rfl, fun _ => rfl⟩
  | e :: es, h, acc => by
    obtain ⟨acc₁, hes, hes'⟩ := Expr.ValidAll.addNames h.2 acc
    obtain ⟨acc₂, he, he'⟩ := Expr.Valid.addNames h.1 acc₁
    refine ⟨acc₂, ?_, fun n => ?_⟩
    · simp only [Expr.addNamesAll, hes, he, bind, Except.bind]
    · simp only [Expr.placeAll, Expr.addNamesAll, hes', he', bind, Except.bind]

theorem Expr.ValidEntries.addNames : ∀ {es : List (String × Expr)}, Expr.ValidEntries es → ∀ acc,
    ∃ acc', Expr.addNamesEntries acc es = .ok acc' ∧
      ∀ n, Expr.addNamesEntries acc (Expr.placeEntries n es).1 = .ok acc'
  | [], _, acc => ⟨acc, rfl, fun _ => rfl⟩
  | (_, e) :: es, h, acc => by
    obtain ⟨acc₁, hes, hes'⟩ := Expr.ValidEntries.addNames h.2 acc
    obtain ⟨acc₂, he, he'⟩ := Expr.Valid.addNames h.1 acc₁
    refine ⟨acc₂, ?_, fun n => ?_⟩
    · simp only [Expr.addNamesEntries, hes, he, bind, Except.bind]
    · simp only [Expr.placeEntries, Expr.addNamesEntries, hes', he', bind, Except.bind]

/-- The names of valid data can be added, and placing changes none. -/
theorem Value.Valid.addNames : ∀ {d : Value}, d.Valid → ∀ acc, ∃ acc', d.addNames acc = .ok acc' ∧
    ∀ n, (d.place n).1.addNames acc = .ok acc'
  | .pair _ h t, hd, acc => by
    obtain ⟨acc₁, hh, hh'⟩ := Value.Valid.addNames hd.1 acc
    obtain ⟨acc₂, ht, ht'⟩ := Value.Valid.addNames hd.2 acc₁
    refine ⟨acc₂, ?_, fun n => ?_⟩
    · simp only [Value.addNames, hh, ht, bind, Except.bind]
    · simp only [Value.place, Value.addNames, hh', ht', bind, Except.bind]
  | .closure _ ps b, hd, acc => by
    obtain ⟨acc', hb, hb'⟩ := Expr.ValidAll.addNames hd.2 (acc.insertAll ps)
    exact ⟨acc', hb, fun n => hb' (n + 1)⟩
  | .number _, _, acc | .boolean _, _, acc | .string _, _, acc | .symbol _, _, acc
  | .empty, _, acc | .prim _, _, acc | .dict _ _, _, acc => ⟨acc, rfl, fun _ => rfl⟩

end

/-- **The names of a valid program can be collected.** -/
theorem collectNames_of_valid {p : List Expr} (h : Expr.ValidAll p) :
    ∃ names, collectNames p = .ok names := by
  obtain ⟨names, hnames, -⟩ := Expr.ValidAll.addNames h ∅
  exact ⟨names, hnames⟩

/-- They are the same names wherever the program is placed. -/
theorem collectNames_place {p : List Expr} {names : NameSet} (h : Expr.ValidAll p)
    (hnames : collectNames p = .ok names) (n : Nat) :
    collectNames (Expr.placeAll n p).1 = .ok names := by
  obtain ⟨names', hok, hplaced⟩ := Expr.ValidAll.addNames h ∅
  obtain rfl : names' = names := Except.ok.inj (hok.symm.trans hnames)
  exact hplaced n

/-- **A sound program is ready to run**: its names can be reserved. -/
theorem exists_ready {p : List Expr} (hp : Expr.EveryAll Expr.NodeSound p) :
    ∃ names, collectNames p = .ok names ∧ Expr.EveryAll (Expr.NodeReady names) p := by
  obtain ⟨names, hnames⟩ := collectNames_of_valid hp.validAll
  exact ⟨names, hnames, Expr.EveryAll.and hp (collectNames_names hnames)⟩

end Lambdict
