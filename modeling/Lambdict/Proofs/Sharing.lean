import Lambdict.Proofs.Equality

/-!
# Equality of values that share objects

`Value.equal` compares two values as if they had no object in common.  Where they do have one, a
comparison may stop early: what is one object is taken for equal without a look inside.  Only
numbers are always looked at, when they are results themselves, elements of a chain or its last
tail.  So all that can come of an early stop is that a number which differs from itself is passed
over.

What two values share is given by a `Sharing`, and `Value.EqualSharing` is the comparison with its
stops.  With nothing shared it is `Value.equal` (`Value.equalSharing_nothing`); of a value and
itself it is what `Outcome.equalSelf` says (`Value.equalSharing_everything`).  In between it lies
between two readings of equality that have no stops: numbers are equal, or they may also both be not
a number (`Value.EqualSharing.equalBy`).  These two have the same outlines and differ only in
numbers, so that sharing has no say in what stands opposite a boolean
(`Value.equal_keeps_booleans`).
-/

namespace Lambdict

/-- **What two things share.**  A sharing holds of a way, which is the numbers of the parts to go
into one after another, if both things have one and the same object at its end. -/
def Sharing : Type :=
  List Nat → Prop

namespace Sharing

/-- No object in common. -/
def nothing : Sharing := fun _ => False

/-- All objects in common. -/
def everything : Sharing := fun _ => True

/-- What two things share inside part number `k`. -/
def part (sh : Sharing) (k : Nat) : Sharing := fun way => sh (k :: way)

/-- Two things are one object, and therefore the same. -/
def One (sh : Sharing) {α : Type} (a b : α) : Prop :=
  sh [] ∧ a = b

end Sharing

mutual

/-- Equality of two expressions that may be one object. -/
def Expr.EqualSharing (sh : Sharing) (e e' : Expr) : Prop :=
  sh.One e e' ∨
    match e, e' with
    | .number m, .number n => (sh.part 0).One m n ∨ m.equal n = true
    | .boolean a, .boolean b => a = b
    | .string s, .string t => s = t
    | .var x, .var y => x = y
    | .prim p, .prim q => p = q
    | .cond t c a, .cond t' c' a' =>
      Expr.EqualSharing (sh.part 0) t t' ∧ Expr.EqualSharing (sh.part 1) c c' ∧
        Expr.EqualSharing (sh.part 2) a a'
    | .lambda ps b, .lambda ps' b' => ps = ps' ∧ Expr.EqualSharingAll (sh.part 0) b b'
    | .app f es, .app f' es' =>
      Expr.EqualSharing (sh.part 0) f f' ∧ Expr.EqualSharingAll (sh.part 1) es es'
    | .define x e, .define y e' => x = y ∧ Expr.EqualSharing (sh.part 0) e e'
    | .quote d, .quote d' => Value.EqualSharing (sh.part 0) false d d'
    | .dict es, .dict es' => Expr.EqualSharingEntries (sh.part 0) es es'
    | .foreign v, .foreign v' => Value.EqualSharing sh false v v'
    | _, _ => False
termination_by structural e

/-- Equality of two sequences of expressions. -/
def Expr.EqualSharingAll (sh : Sharing) (es es' : List Expr) : Prop :=
  sh.One es es' ∨
    match es, es' with
    | [], [] => True
    | e :: es, e' :: es' =>
      Expr.EqualSharing (sh.part 0) e e' ∧ Expr.EqualSharingAll (sh.part 1) es es'
    | _, _ => False
termination_by structural es

/-- Equality of the entries of two dictionary literals. -/
def Expr.EqualSharingEntries (sh : Sharing) (es es' : List (String × Expr)) : Prop :=
  sh.One es es' ∨
    match es, es' with
    | [], [] => True
    | (k, e) :: es, (k', e') :: es' =>
      ((sh.part 0).One (k, e) (k', e') ∨ k = k' ∧ Expr.EqualSharing ((sh.part 0).part 0) e e') ∧
        Expr.EqualSharingEntries (sh.part 1) es es'
    | _, _ => False
termination_by structural es

/-- **Equality of two values that may share objects**, strictly or loosely at the top.  One object
is equal to itself, unless it is a number that is compared strictly. -/
def Value.EqualSharing (sh : Sharing) (strict : Bool) (v v' : Value) : Prop :=
  ((strict && v.isNumber) = false ∧ sh.One v v') ∨
    match v, v' with
    | .nothing, .nothing => True
    | .number m, .number n => m.equal n = true
    | .number m, .boolean b => strict = false ∧ m.equal (truthNumber b) = true
    | .boolean a, .boolean b => a = b
    | .boolean a, .number n => strict = false ∧ (truthNumber a).equal n = true
    | .string s, .string t => s = t
    | .symbol x, .symbol y => x = y
    | .empty, .empty => True
    | .pair _ h t, .pair _ h' t' =>
      Value.EqualSharing (sh.part 0) true h h' ∧ Value.EqualSharing (sh.part 1) true t t'
    | .prim p, .prim q => p = q
    | .closure _ ps b, .closure _ ps' b' => ps = ps' ∧ Expr.EqualSharingAll (sh.part 0) b b'
    | .dict _ es, .dict _ es' => Value.EqualSharingEntries (sh.part 0) es es'
    | .code _ e, .code _ e' => Expr.EqualSharing (sh.part 0) e e'
    | .sequence _ vs, .sequence _ vs' => Value.EqualSharingAll (sh.part 0) vs vs'
    | _, _ => False
termination_by structural v

/-- Equality of two plain sequences, item by item. -/
def Value.EqualSharingAll (sh : Sharing) (vs vs' : List Value) : Prop :=
  match vs, vs' with
  | [], [] => True
  | v :: vs, v' :: vs' =>
    Value.EqualSharing (sh.part 0) false v v' ∧ Value.EqualSharingAll (sh.part 1) vs vs'
  | _, _ => False
termination_by structural vs

/-- Equality of the chains of entries of two dictionaries.  A link may be one object, and so may an
entry. -/
def Value.EqualSharingEntries (sh : Sharing) (es es' : List (String × Value)) : Prop :=
  sh.One es es' ∨
    match es, es' with
    | [], [] => True
    | (k, v) :: es, (k', v') :: es' =>
      ((sh.part 0).One (k, v) (k', v') ∨
          k = k' ∧ Value.EqualSharing ((sh.part 0).part 0) true v v') ∧
        Value.EqualSharingEntries (sh.part 1) es es'
    | _, _ => False
termination_by structural es

end

/-! ## Equality without sharing is equality -/

mutual

/-- Expressions that are equal with nothing shared are equal whatever they share. -/
theorem Expr.equalSharing_of_equalBy : ∀ (sh : Sharing) {e e' : Expr},
    e.equalBy Number.equal e' = true → Expr.EqualSharing sh e e'
  | _, .number _, e', h | _, .boolean _, e', h | _, .string _, e', h | _, .var _, e', h
  | _, .prim _, e', h => by
    unfold Expr.EqualSharing
    cases e' <;> simp_all [Expr.equalBy]
  | _, .cond t c a, e', h => by
    unfold Expr.EqualSharing
    cases e' with
    | cond t' c' a' =>
      simp only [Expr.equalBy, Bool.and_eq_true] at h
      exact .inr ⟨Expr.equalSharing_of_equalBy _ h.1.1, Expr.equalSharing_of_equalBy _ h.1.2,
        Expr.equalSharing_of_equalBy _ h.2⟩
    | _ => simp [Expr.equalBy] at h
  | _, .lambda ps b, e', h => by
    unfold Expr.EqualSharing
    cases e' with
    | lambda ps' b' =>
      simp only [Expr.equalBy, Bool.and_eq_true, beq_iff_eq] at h
      exact .inr ⟨h.1, Expr.equalSharingAll_of_equalAllBy _ h.2⟩
    | _ => simp [Expr.equalBy] at h
  | _, .app f es, e', h => by
    unfold Expr.EqualSharing
    cases e' with
    | app f' es' =>
      simp only [Expr.equalBy, Bool.and_eq_true] at h
      exact .inr ⟨Expr.equalSharing_of_equalBy _ h.1, Expr.equalSharingAll_of_equalAllBy _ h.2⟩
    | _ => simp [Expr.equalBy] at h
  | _, .define x e, e', h => by
    unfold Expr.EqualSharing
    cases e' with
    | define x' e' =>
      simp only [Expr.equalBy, Bool.and_eq_true, beq_iff_eq] at h
      exact .inr ⟨h.1, Expr.equalSharing_of_equalBy _ h.2⟩
    | _ => simp [Expr.equalBy] at h
  | _, .quote d, e', h => by
    unfold Expr.EqualSharing
    cases e' with
    | quote d' => exact .inr (Value.equalSharing_of_equalBy _ false h)
    | _ => simp [Expr.equalBy] at h
  | _, .dict es, e', h => by
    unfold Expr.EqualSharing
    cases e' with
    | dict es' => exact .inr (Expr.equalSharingEntries_of_equalEntriesBy _ h)
    | _ => simp [Expr.equalBy] at h
  | _, .foreign v, e', h => by
    unfold Expr.EqualSharing
    cases e' with
    | foreign v' => exact .inr (Value.equalSharing_of_equalBy _ false h)
    | _ => simp [Expr.equalBy] at h
termination_by structural _ e => e

theorem Expr.equalSharingAll_of_equalAllBy : ∀ (sh : Sharing) {es es' : List Expr},
    Expr.equalAllBy Number.equal es es' = true → Expr.EqualSharingAll sh es es'
  | _, [], [], _ => .inr trivial
  | _, e :: es, e' :: es', h => by
    simp only [Expr.equalAllBy, Bool.and_eq_true] at h
    unfold Expr.EqualSharingAll
    exact .inr ⟨Expr.equalSharing_of_equalBy _ h.1, Expr.equalSharingAll_of_equalAllBy _ h.2⟩
termination_by structural _ es => es

theorem Expr.equalSharingEntries_of_equalEntriesBy : ∀ (sh : Sharing)
    {es es' : List (String × Expr)},
    Expr.equalEntriesBy Number.equal es es' = true → Expr.EqualSharingEntries sh es es'
  | _, [], [], _ => .inr trivial
  | _, (k, e) :: es, (k', e') :: es', h => by
    simp only [Expr.equalEntriesBy, Bool.and_eq_true, beq_iff_eq] at h
    unfold Expr.EqualSharingEntries
    exact .inr ⟨.inr ⟨h.1.1, Expr.equalSharing_of_equalBy _ h.1.2⟩,
      Expr.equalSharingEntries_of_equalEntriesBy _ h.2⟩
termination_by structural _ es => es

theorem Value.equalSharing_of_equalBy : ∀ (sh : Sharing) (strict : Bool) {v v' : Value},
    v.equalBy Number.equal strict v' = true → Value.EqualSharing sh strict v v'
  | _, _, .nothing, v', h | _, _, .number _, v', h | _, _, .boolean _, v', h
  | _, _, .string _, v', h | _, _, .symbol _, v', h | _, _, .empty, v', h
  | _, _, .prim _, v', h => by
    unfold Value.EqualSharing
    cases v' <;> simp_all [Value.equalBy]
  | _, _, .pair _ hd tl, v', h => by
    unfold Value.EqualSharing
    cases v' with
    | pair _ hd' tl' =>
      simp only [Value.equalBy, Bool.and_eq_true] at h
      exact .inr ⟨Value.equalSharing_of_equalBy _ true h.1,
        Value.equalSharing_of_equalBy _ true h.2⟩
    | _ => simp [Value.equalBy] at h
  | _, _, .closure _ ps b, v', h => by
    unfold Value.EqualSharing
    cases v' with
    | closure _ ps' b' =>
      simp only [Value.equalBy, Bool.and_eq_true, beq_iff_eq] at h
      exact .inr ⟨h.1, Expr.equalSharingAll_of_equalAllBy _ h.2⟩
    | _ => simp [Value.equalBy] at h
  | _, _, .dict _ es, v', h => by
    unfold Value.EqualSharing
    cases v' with
    | dict _ es' => exact .inr (Value.equalSharingEntries_of_equalEntriesBy _ h)
    | _ => simp [Value.equalBy] at h
  | _, _, .code _ e, v', h => by
    unfold Value.EqualSharing
    cases v' with
    | code _ e' => exact .inr (Expr.equalSharing_of_equalBy _ h)
    | _ => simp [Value.equalBy] at h
  | _, _, .sequence _ vs, v', h => by
    unfold Value.EqualSharing
    cases v' with
    | sequence _ vs' => exact .inr (Value.equalSharingAll_of_equalAllBy _ h)
    | _ => simp [Value.equalBy] at h
termination_by structural _ _ v => v

theorem Value.equalSharingAll_of_equalAllBy : ∀ (sh : Sharing) {vs vs' : List Value},
    Value.equalAllBy Number.equal vs vs' = true → Value.EqualSharingAll sh vs vs'
  | _, [], [], _ => trivial
  | _, v :: vs, v' :: vs', h => by
    simp only [Value.equalAllBy, Bool.and_eq_true] at h
    exact ⟨Value.equalSharing_of_equalBy _ false h.1, Value.equalSharingAll_of_equalAllBy _ h.2⟩
termination_by structural _ vs => vs

theorem Value.equalSharingEntries_of_equalEntriesBy : ∀ (sh : Sharing)
    {es es' : List (String × Value)},
    Value.equalEntriesBy Number.equal es es' = true → Value.EqualSharingEntries sh es es'
  | _, [], [], _ => .inr trivial
  | _, (k, v) :: es, (k', v') :: es', h => by
    simp only [Value.equalEntriesBy, Bool.and_eq_true, beq_iff_eq] at h
    unfold Value.EqualSharingEntries
    exact .inr ⟨.inr ⟨h.1.1, Value.equalSharing_of_equalBy _ true h.1.2⟩,
      Value.equalSharingEntries_of_equalEntriesBy _ h.2⟩
termination_by structural _ es => es

end

/-! ## What sharing can make equal -/

section

variable {same : Number → Number → Bool}

/-- A test of numbers admits a sharing: it takes equal numbers for one and, if anything is shared,
every number for itself. -/
structure Sharing.Admitted (same : Number → Number → Bool) (sh : Sharing) : Prop where
  equal : ∀ m n : Number, m.equal n = true → same m n = true
  refl : ∀ way, sh way → ∀ n, same n n = true

theorem Sharing.Admitted.part {sh : Sharing} (h : sh.Admitted same) (k : Nat) :
    (sh.part k).Admitted same :=
  ⟨h.equal, fun way hway => h.refl (k :: way) hway⟩

mutual

/-- Equality with stops is equality by a test that lets every number be itself. -/
theorem Expr.EqualSharing.equalBy : ∀ {sh : Sharing} {e e' : Expr}, sh.Admitted same →
    Expr.EqualSharing sh e e' → e.equalBy same e' = true
  | sh, e, e', hp, h => by
    unfold Expr.EqualSharing at h
    rcases h with ⟨hone, rfl⟩ | h
    · exact Expr.equalBy_refl (hp.refl [] hone) e
    · match e, e', h with
      | .number m, .number n, h =>
        rcases h with ⟨hone, rfl⟩ | h
        · exact hp.refl [0] hone m
        · exact hp.equal m n h
      | .boolean _, .boolean _, h | .string _, .string _, h | .var _, .var _, h
      | .prim _, .prim _, h => simpa [Expr.equalBy] using h
      | .cond t c a, .cond t' c' a', ⟨ht, hc, ha⟩ =>
        simp only [Expr.equalBy, Bool.and_eq_true]
        exact ⟨⟨Expr.EqualSharing.equalBy (hp.part 0) ht,
          Expr.EqualSharing.equalBy (hp.part 1) hc⟩, Expr.EqualSharing.equalBy (hp.part 2) ha⟩
      | .lambda _ b, .lambda _ b', ⟨hps, hb⟩ =>
        simp only [Expr.equalBy, Bool.and_eq_true, beq_iff_eq]
        exact ⟨hps, Expr.EqualSharingAll.equalAllBy (hp.part 0) hb⟩
      | .app f es, .app f' es', ⟨hf, hes⟩ =>
        simp only [Expr.equalBy, Bool.and_eq_true]
        exact ⟨Expr.EqualSharing.equalBy (hp.part 0) hf,
          Expr.EqualSharingAll.equalAllBy (hp.part 1) hes⟩
      | .define _ e, .define _ e', ⟨hx, he⟩ =>
        simp only [Expr.equalBy, Bool.and_eq_true, beq_iff_eq]
        exact ⟨hx, Expr.EqualSharing.equalBy (hp.part 0) he⟩
      | .quote d, .quote d', h => exact Value.EqualSharing.equalBy (hp.part 0) h
      | .dict es, .dict es', h => exact Expr.EqualSharingEntries.equalEntriesBy (hp.part 0) h
      | .foreign v, .foreign v', h => exact Value.EqualSharing.equalBy hp h
termination_by structural _ e => e

theorem Expr.EqualSharingAll.equalAllBy : ∀ {sh : Sharing} {es es' : List Expr}, sh.Admitted same →
    Expr.EqualSharingAll sh es es' → Expr.equalAllBy same es es' = true
  | sh, es, es', hp, h => by
    unfold Expr.EqualSharingAll at h
    rcases h with ⟨hone, rfl⟩ | h
    · exact Expr.equalAllBy_refl (hp.refl [] hone) es
    · match es, es', h with
      | [], [], _ => rfl
      | e :: es, e' :: es', ⟨he, hes⟩ =>
        simp only [Expr.equalAllBy, Bool.and_eq_true]
        exact ⟨Expr.EqualSharing.equalBy (hp.part 0) he,
          Expr.EqualSharingAll.equalAllBy (hp.part 1) hes⟩
termination_by structural _ es => es

theorem Expr.EqualSharingEntries.equalEntriesBy : ∀ {sh : Sharing}
    {es es' : List (String × Expr)}, sh.Admitted same → Expr.EqualSharingEntries sh es es' →
    Expr.equalEntriesBy same es es' = true
  | sh, es, es', hp, h => by
    unfold Expr.EqualSharingEntries at h
    rcases h with ⟨hone, rfl⟩ | h
    · exact Expr.equalEntriesBy_refl (hp.refl [] hone) es
    · match es, es', h with
      | [], [], _ => rfl
      | (k, e) :: es, (k', e') :: es', ⟨hentry, hes⟩ =>
        have he : k = k' ∧ e.equalBy same e' = true := by
          rcases hentry with ⟨hone, heq⟩ | ⟨hk, he⟩
          · obtain ⟨rfl, rfl⟩ := Prod.mk.inj heq
            exact ⟨rfl, Expr.equalBy_refl (hp.refl [0] hone) e⟩
          · exact ⟨hk, Expr.EqualSharing.equalBy ((hp.part 0).part 0) he⟩
        simp only [Expr.equalEntriesBy, Bool.and_eq_true, beq_iff_eq]
        exact ⟨he, Expr.EqualSharingEntries.equalEntriesBy (hp.part 1) hes⟩
termination_by structural _ es => es

/-- Equality of values with stops is equality by a test that lets every number be itself. -/
theorem Value.EqualSharing.equalBy : ∀ {sh : Sharing} {strict : Bool} {v v' : Value},
    sh.Admitted same → Value.EqualSharing sh strict v v' → v.equalBy same strict v' = true
  | sh, strict, v, v', hp, h => by
    unfold Value.EqualSharing at h
    rcases h with ⟨-, hone, rfl⟩ | h
    · exact Value.equalBy_refl (hp.refl [] hone) strict v
    · match v, v', h with
      | .number m, .number n, h => exact hp.equal m n h
      | .number m, .boolean b, ⟨hs, h⟩ => simp [Value.equalBy, hs, hp.equal _ _ h]
      | .boolean a, .number n, ⟨hs, h⟩ => simp [Value.equalBy, hs, hp.equal _ _ h]
      | .nothing, .nothing, _ | .empty, .empty, _ => rfl
      | .boolean _, .boolean _, h | .string _, .string _, h | .symbol _, .symbol _, h
      | .prim _, .prim _, h => simpa [Value.equalBy] using h
      | .pair _ hd tl, .pair _ hd' tl', ⟨hh, ht⟩ =>
        simp only [Value.equalBy, Bool.and_eq_true]
        exact ⟨Value.EqualSharing.equalBy (hp.part 0) hh,
          Value.EqualSharing.equalBy (hp.part 1) ht⟩
      | .closure _ ps b, .closure _ ps' b', ⟨hps, hb⟩ =>
        simp only [Value.equalBy, Bool.and_eq_true, beq_iff_eq]
        exact ⟨hps, Expr.EqualSharingAll.equalAllBy (hp.part 0) hb⟩
      | .dict _ es, .dict _ es', h =>
        exact Value.EqualSharingEntries.equalEntriesBy (hp.part 0) h
      | .code _ e, .code _ e', h => exact Expr.EqualSharing.equalBy (hp.part 0) h
      | .sequence _ vs, .sequence _ vs', h =>
        exact Value.EqualSharingAll.equalAllBy (hp.part 0) h
termination_by structural _ _ v => v

theorem Value.EqualSharingAll.equalAllBy : ∀ {sh : Sharing} {vs vs' : List Value},
    sh.Admitted same → Value.EqualSharingAll sh vs vs' → Value.equalAllBy same vs vs' = true
  | _, [], [], _, _ => rfl
  | _, v :: vs, v' :: vs', hp, ⟨hv, hvs⟩ => by
    simp only [Value.equalAllBy, Bool.and_eq_true]
    exact ⟨Value.EqualSharing.equalBy (hp.part 0) hv,
      Value.EqualSharingAll.equalAllBy (hp.part 1) hvs⟩
termination_by structural _ vs => vs

theorem Value.EqualSharingEntries.equalEntriesBy : ∀ {sh : Sharing}
    {es es' : List (String × Value)}, sh.Admitted same → Value.EqualSharingEntries sh es es' →
    Value.equalEntriesBy same es es' = true
  | sh, es, es', hp, h => by
    unfold Value.EqualSharingEntries at h
    rcases h with ⟨hone, rfl⟩ | h
    · exact Value.equalEntriesBy_refl (hp.refl [] hone) es
    · match es, es', h with
      | [], [], _ => rfl
      | (k, v) :: es, (k', v') :: es', ⟨hentry, hes⟩ =>
        have hv : k = k' ∧ v.equalBy same true v' = true := by
          rcases hentry with ⟨hone, heq⟩ | ⟨hk, hv⟩
          · obtain ⟨rfl, rfl⟩ := Prod.mk.inj heq
            exact ⟨rfl, Value.equalBy_refl (hp.refl [0] hone) true v⟩
          · exact ⟨hk, Value.EqualSharing.equalBy ((hp.part 0).part 0) hv⟩
        simp only [Value.equalEntriesBy, Bool.and_eq_true, beq_iff_eq]
        exact ⟨hv, Value.EqualSharingEntries.equalEntriesBy (hp.part 1) hes⟩
termination_by structural _ es => es

end

end

/-! ## What equality says of booleans -/

theorem NumbersEqual.of_sameOrNaN {ms ns : List Number} (hms : ∀ m ∈ ms, m.isNaN = false)
    (h : NumbersEqual Number.sameOrNaN ms ns) : NumbersEqual Number.equal ms ns := by
  induction h with
  | nil => exact .nil
  | cons hmn _ ih =>
    obtain ⟨hm, hms⟩ := List.forall_mem_cons.1 hms
    rw [Number.sameOrNaN, hm, Bool.false_and, Bool.or_false] at hmn
    exact .cons hmn (ih hms)

namespace Value

/-- With nothing shared the comparison is structural equality. -/
theorem equalSharing_nothing {a b : Value} :
    EqualSharing .nothing true a b ↔ a.equal b = true :=
  ⟨EqualSharing.equalBy ⟨fun _ _ h => h, fun _ h => h.elim⟩, equalSharing_of_equalBy .nothing true⟩

/-- A result compared with itself is found equal, unless it is a number that differs from itself. -/
theorem equalSharing_everything (v : Value) :
    EqualSharing .everything true v v ↔ (Outcome.ok v).equalSelf = true := by
  cases v with
  | number n => simp [EqualSharing, Outcome.equalSelf, isNumber]
  | _ => exact iff_of_true (by unfold EqualSharing; exact .inl ⟨rfl, trivial, rfl⟩) rfl

/-- What is equal has the same outline, and its numbers are equal one by one or both are not a
number. -/
theorem EqualSharing.outline {sh : Sharing} {a b : Value} (h : EqualSharing sh true a b) :
    a.outline true false = b.outline true false ∧
      NumbersEqual Number.sameOrNaN (a.numbers false) (b.numbers false) := by
  have hadmitted : sh.Admitted Number.sameOrNaN :=
    ⟨fun m n h => by simp [Number.sameOrNaN, h], fun _ _ => Number.sameOrNaN_refl⟩
  exact (equalBy_iff truthNumber_sameOrNaN a true b).1 (h.equalBy hadmitted)

/-- **Equality keeps booleans.**  Whatever two values share, if they are equal they are one but for
their objects, their numbers and their bare booleans, and number by number they are equal, where a
bare boolean counts as the number it stands for; only two numbers that are both not a number may be
passed over.  Where there are none, and also where nothing is shared, that is exactly what it takes
to be equal.

So in equal values without bare booleans, every boolean, be it in a pair, in a dictionary, in the
body of a closure or in data quoted there, stands opposite an equal boolean and never opposite a
number. -/
theorem equal_keeps_booleans (sh : Sharing) (a b : Value) :
    (EqualSharing sh true a b → a.outline true false = b.outline true false ∧
      NumbersEqual Number.sameOrNaN (a.numbers false) (b.numbers false)) ∧
    (a.NaNFree → (EqualSharing sh true a b ↔ a.outline true false = b.outline true false ∧
      NumbersEqual Number.equal (a.numbers false) (b.numbers false))) ∧
    (EqualSharing .nothing true a b ↔ a.outline true false = b.outline true false ∧
      NumbersEqual Number.equal (a.numbers false) (b.numbers false)) ∧
    (a.NoneBare false → b.NoneBare false → EqualSharing sh true a b →
      a.outline false false = b.outline false false) ∧
    ((Outcome.ok a).equal (.ok b) = true ↔ EqualSharing .nothing true a b) := by
  have hequal := equalBy_iff truthNumber_equal a true b
  refine ⟨EqualSharing.outline, fun ha => ⟨fun h => ?_, fun h => ?_⟩,
    equalSharing_nothing.trans hequal, fun ha hb h => ?_, equalSharing_nothing.symm⟩
  · obtain ⟨houtline, hnumbers⟩ := h.outline
    exact ⟨houtline, hnumbers.of_sameOrNaN ha⟩
  · exact equalSharing_of_equalBy sh true (hequal.2 h)
  · rw [← ha.outline, ← hb.outline]
    exact h.outline.1

/-- In a list that is quoted in the body of a closure a boolean does not stand bare, so it equals no
number.  The two closures share the end of their lists. -/
theorem equal_keeps_booleans_quoted :
    let a : Value := .closure (.made 0) [] [.quote (.pair (.given 0) (.boolean true) .empty)]
    let b : Value := .closure (.made 0) [] [.quote (.pair (.given 1) (.number (.int 1)) .empty)]
    let sh : Sharing := (· = [0, 0, 0, 1])
    a.NaNFree ∧ a.NoneBare false ∧ b.NoneBare false ∧ ¬ EqualSharing sh true a b ∧
      EqualSharing sh true a a := by
  intro a b sh
  have hn : a.NaNFree := by simp [NaNFree, a, numbers, Expr.numbersAll, Expr.numbers]
  have ha : a.NoneBare false := ⟨⟨rfl, trivial⟩, trivial⟩
  have hb : b.NoneBare false := ⟨⟨trivial, trivial⟩, trivial⟩
  refine ⟨hn, ha, hb, fun h => ?_, ?_⟩
  · have houtline := (equal_keeps_booleans sh a b).2.2.2.1 ha hb h
    simp [a, b, outline, Expr.outlineAll, Expr.outline] at houtline
  · exact ((equal_keeps_booleans sh a a).2.1 hn).2 ⟨rfl, NumbersEqual.nil_nil⟩

/-- A list with a number in it that is not a number equals itself, but not its copy. -/
example :
    let p : Value := .pair (.made 0) (.number (.float .nan)) .empty
    EqualSharing .everything true p p ∧ ¬ EqualSharing .nothing true p p := by
  intro p
  refine ⟨(equalSharing_everything p).2 rfl, fun h => ?_⟩
  have hp : p.equal p = true := equalSharing_nothing.1 h
  exact absurd hp (by decide)

/-- A quoted boolean stands bare in the body of a closure: it equals the number that it stands for,
so the outlines of the two closures differ.  The two results come from runs of their own, so they
share no object. -/
theorem equal_confuses_quoted :
    let a : Value := .closure (.made 0) [] [.quote (.boolean true)]
    let b : Value := .closure (.made 0) [] [.quote (.number (.int 1))]
    runText 0 ⟨false, .construct⟩ "(lambda () '#t)" = some (.ok (.ok a)) ∧
    runText 0 ⟨false, .construct⟩ "(lambda () '1)" = some (.ok (.ok b)) ∧
    EqualSharing .nothing true a b ∧ (Outcome.ok a).equal (.ok b) = true ∧
      a.outline false false ≠ b.outline false false := by
  intro a b
  have hequal : a.equal b = true := by
    refine (equalBy_iff truthNumber_equal a true b).2 ⟨rfl, ?_⟩
    exact NumbersEqual.singleton_iff.2 (Number.equal_int.2 rfl)
  refine ⟨rfl, rfl, equalSharing_nothing.2 hequal, hequal, fun h => ?_⟩
  simp [a, b, outline, Expr.outlineAll, Expr.outline] at h

end Value

end Lambdict
