import Lambdict.Proofs.Simulation.Basic

/-!
# Primitives under simulation

A primitive sees of its arguments their outermost shape, the atoms in them, and which objects they
are.  Related arguments agree in all of these, so every primitive keeps step on them
(`Simulation.apply_steps`).  What a primitive complains about can be shown differently on the two
sides; it can be shown on both or on neither.
-/

namespace Lambdict

open Primitive

namespace Simulation

variable {S : Simulation} {α β : Type} {R : S.World → α → β → Prop} {W : S.World}
  {v v' : Value} {args args' : List Value}

/-! ## What is seen of a value -/

/-- Related values are the same number or none. -/
theorem number?_eq (h : S.value W v v') : v.number? = v'.number? := by
  cases S.value_iff.1 h <;> rfl

/-- Related values are the same boolean or none. -/
theorem boolean?_eq (h : S.value W v v') : v.boolean? = v'.boolean? := by
  cases S.value_iff.1 h <;> rfl

/-- Related values are atoms together. -/
theorem isAtom_eq (h : S.value W v v') : v.isAtom = v'.isAtom := by
  cases S.value_iff.1 h <;> rfl

/-- Related values are false together. -/
theorem isFalse_eq (h : S.value W v v') : v.isFalse = v'.isFalse := by
  cases S.value_iff.1 h <;> rfl

/-- A value that is no object corresponds to itself. -/
theorem value_plain (h : v.identity? = none) : S.value W v v :=
  S.value_iff.2 (.plain h)

/-- An atom is related to itself only. -/
theorem eq_of_isAtom (h : S.value W v v') (ha : v.isAtom = true) : v = v' := by
  cases S.value_iff.1 h with
  | plain => rfl
  | _ => simp [Value.isAtom] at ha

theorem mapM_number?_eq (h : List.Forall₂ (S.value W) args args') :
    args.mapM Value.number? = args'.mapM Value.number? := by
  induction h with
  | nil => rfl
  | cons hv _ ih => simp only [List.mapM_cons, number?_eq hv, ih]

theorem mapM_boolean?_eq (h : List.Forall₂ (S.value W) args args') :
    args.mapM Value.boolean? = args'.mapM Value.boolean? := by
  induction h with
  | nil => rfl
  | cons hv _ ih => simp only [List.mapM_cons, boolean?_eq hv, ih]

theorem writableAll_eq (h : List.Forall₂ (S.value W) args args') :
    Value.writableAll args = Value.writableAll args' := by
  induction h with
  | nil => rfl
  | cons hv _ ih => simp only [Value.writableAll, S.writable_eq hv, ih]

/-- Two objects are one on the one side just if they are one on the other. -/
theorem identical_eq {s s' : Store} (hs : S.fits W s s') {a a' b b' : Value}
    (ha : S.value W a a') (hb : S.value W b b') : a.identical b = a'.identical b' := by
  cases S.value_iff.1 ha with
  | plain hpa =>
    cases S.value_iff.1 hb with
    | plain hpb => rfl
    | _ => cases a <;> first | rfl | simp [Value.identity?] at hpa
  | pair hi | closure hi | dict hi | code hi | sequence hi =>
    cases S.value_iff.1 hb with
    | plain hpb => cases b <;> first | rfl | simp [Value.identity?] at hpb
    | pair hj | closure hj | dict hj | code hj | sequence hj =>
      simp [Value.identical, Value.identity?, S.one_to_one hs hi hj]

/-- **Related values are equal together**, also by identity. -/
theorem numEqual_eq {s s' : Store} (hs : S.fits W s s') {a a' b b' : Value}
    (ha : S.value W a a') (hb : S.value W b b') : a.numEqual b = a'.numEqual b' := by
  unfold Value.numEqual
  rw [number?_eq ha, number?_eq hb, isAtom_eq ha, isAtom_eq hb, identical_eq hs ha hb]
  by_cases hab : (a'.isAtom && b'.isAtom) = true
  · rw [Bool.and_eq_true, ← isAtom_eq ha, ← isAtom_eq hb] at hab
    rw [eq_of_isAtom ha hab.1, eq_of_isAtom hb hab.2]
  · simp only [if_neg hab]

/-- `eq?` says the same of related values. -/
theorem atomEqual_eq {a a' b b' : Value} (ha : S.value W a a') (hb : S.value W b b') :
    a.atomEqual b = a'.atomEqual b' := by
  cases S.value_iff.1 ha with
  | plain hpa =>
    cases S.value_iff.1 hb with
    | plain hpb => rfl
    | _ => cases a <;> rfl
  | _ => rfl

/-! ## What primitives are made of -/

theorem truth_steps (b : Bool) : S.Steps S.value W (truth b) (truth b) :=
  Steps.pure (value_plain rfl)

/-- A complaint: the arguments are shown on both sides, or too long a number is among them on both
sides. -/
theorem mismatch_steps (op : Primitive) (complaint : Complaint)
    (h : List.Forall₂ (S.value W) args args') :
    S.Steps R W (op.mismatch args complaint) (op.mismatch args' complaint) := by
  unfold mismatch renderArguments guardText
  rw [writableAll_eq h]
  by_cases hw : Value.writableAll args' = true
  · rw [if_pos hw, if_pos hw]
    exact Steps.raise ⟨rfl, rfl, rfl⟩
  · rw [if_neg hw, if_neg hw]
    exact Steps.fail (.abort _)

/-- A wrong number of arguments is refused on both sides. -/
theorem wrongArity_steps (op : Primitive) (n : Nat) (h : args.length = args'.length) :
    S.Steps R W (op.wrongArity n args) (op.wrongArity n args') := by
  unfold wrongArity
  rw [h]
  exact Steps.raise (.refl _)

theorem arithmetic_steps (r : Except ArithmeticFault Number) :
    S.Steps S.value W (arithmetic r) (arithmetic r) := by
  cases r with
  | error e => exact Steps.fail (.abort _)
  | ok n => exact Steps.pure (value_plain rfl)

/-- A primitive of one argument keeps step if what it does with related arguments does. -/
theorem unary_steps (op : Primitive) {f g : Value → Eval Value}
    (h : List.Forall₂ (S.value W) args args')
    (hf : ∀ a a', args = [a] → args' = [a'] → S.value W a a' → S.Steps S.value W (f a) (g a')) :
    S.Steps S.value W (op.unary args f) (op.unary args' g) := by
  cases h with
  | nil => exact wrongArity_steps op 1 rfl
  | cons ha h =>
    cases h with
    | nil => exact hf _ _ rfl rfl ha
    | cons _ h => exact wrongArity_steps op 1 (by simp [h.length_eq])

/-- A primitive of two arguments keeps step if what it does with related arguments does. -/
theorem binary_steps (op : Primitive) {f g : Value → Value → Eval Value}
    (h : List.Forall₂ (S.value W) args args')
    (hf : ∀ a a' b b', args = [a, b] → args' = [a', b'] → S.value W a a' → S.value W b b' →
      S.Steps S.value W (f a b) (g a' b')) :
    S.Steps S.value W (op.binary args f) (op.binary args' g) := by
  cases h with
  | nil => exact wrongArity_steps op 2 rfl
  | cons ha h =>
    cases h with
    | nil => exact wrongArity_steps op 2 rfl
    | cons hb h =>
      cases h with
      | nil => exact hf _ _ _ _ rfl rfl ha hb
      | cons _ h => exact wrongArity_steps op 2 (by simp [h.length_eq])

/-- Arithmetic on any number of arguments keeps step. -/
theorem onNumbers_steps (op : Primitive) (f : List Number → Except ArithmeticFault Number)
    (h : List.Forall₂ (S.value W) args args') :
    S.Steps S.value W (op.onNumbers args f) (op.onNumbers args' f) := by
  unfold onNumbers
  rw [mapM_number?_eq h]
  split
  · exact arithmetic_steps _
  · exact mismatch_steps op _ h

/-- Arithmetic on two arguments keeps step. -/
theorem onTwoNumbers_steps (op : Primitive) {f g : Number → Number → Eval Value}
    (h : List.Forall₂ (S.value W) args args')
    (hf : ∀ m n, S.Steps S.value W (f m n) (g m n)) :
    S.Steps S.value W (op.onTwoNumbers args f) (op.onTwoNumbers args' g) := by
  refine binary_steps op h fun a a' b b' _ _ ha hb => ?_
  rw [number?_eq ha, number?_eq hb]
  split
  · exact hf _ _
  · exact mismatch_steps op _ h

/-- The connectives keep step. -/
theorem onBooleans_steps (op : Primitive) (f : List Bool → Bool)
    (h : List.Forall₂ (S.value W) args args') :
    S.Steps S.value W (op.onBooleans args f) (op.onBooleans args' f) := by
  unfold onBooleans
  rw [mapM_boolean?_eq h]
  split
  · exact truth_steps _
  · exact mismatch_steps op _ h

/-- Comparisons keep step. -/
theorem comparison_steps (op : Primitive) (onNumber : Number → Number → Bool)
    (onString : String → String → Bool) (h : List.Forall₂ (S.value W) args args') :
    S.Steps S.value W (op.comparison args onNumber onString)
      (op.comparison args' onNumber onString) := by
  refine binary_steps op h fun a a' b b' _ _ ha hb => ?_
  have hm := mismatch_steps (R := S.value) op .ordered h
  cases S.value_iff.1 ha with
  | plain =>
    cases S.value_iff.1 hb with
    | plain =>
      split
      · exact truth_steps _
      · exact truth_steps _
      · exact hm
    | _ => cases a <;> exact hm
  | _ => exact hm

/-- A predicate keeps step if it says the same of related values. -/
theorem question_steps (op : Primitive) {f : Value → Bool}
    (hf : ∀ a a', S.value W a a' → f a = f a') (h : List.Forall₂ (S.value W) args args') :
    S.Steps S.value W (op.question args f) (op.question args' f) := by
  refine unary_steps op h fun a a' _ _ ha => ?_
  rw [hf a a' ha]
  exact truth_steps _

/-! ## New objects -/

/-- Pairs of related values are related, and are made at once. -/
theorem newPair_steps {h h' t t' : Value} (hh : S.value W h h') (ht : S.value W t t') :
    S.Steps S.value W (newPair h t) (newPair h' t') :=
  Steps.newIdentity.bind fun _ _ _ hW hi =>
    Steps.pure (S.value_iff.2 (.pair hi (S.value_mono hW hh) (S.value_mono hW ht)))

/-- Lists of related values are related, and are made at once. -/
theorem newList_steps (h : List.Forall₂ (S.value W) args args') :
    S.Steps S.value W (newList args) (newList args') := by
  induction h with
  | nil => exact Steps.pure (value_plain rfl)
  | cons hv _ ih => exact ih.bind fun _ _ _ hW ht => newPair_steps (S.value_mono hW hv) ht

/-- Related entries stay related in later worlds. -/
theorem entries_mono {W' : S.World} (hW : S.le W W') {es es' : List (String × Value)}
    (h : List.Forall₂ (EntryRel (S.value W)) es es') :
    List.Forall₂ (EntryRel (S.value W')) es es' :=
  h.imp fun _ _ he => ⟨he.1, S.value_mono hW he.2⟩

/-- Dictionaries with related entries are related, and are made at once. -/
theorem newDict_steps {es es' : List (String × Value)}
    (h : List.Forall₂ (EntryRel (S.value W)) es es') :
    S.Steps S.value W (newDict es) (newDict es') :=
  Steps.newIdentity.bind fun _ _ _ hW hi =>
    Steps.pure (S.value_iff.2 (.dict hi (entries_mono hW h)))

/-! ## Dictionaries -/

/-- The first entry of a key is at the same place on both sides. -/
theorem lookup_eq {es es' : List (String × Value)}
    (h : List.Forall₂ (EntryRel (S.value W)) es es') (key : String) :
    (es.lookup key = none ∧ es'.lookup key = none) ∨
      ∃ w w', es.lookup key = some w ∧ es'.lookup key = some w' ∧ S.value W w w' := by
  induction h with
  | nil => exact .inl ⟨rfl, rfl⟩
  | @cons p q es es' hpq _ ih =>
    obtain ⟨k, w⟩ := p
    obtain ⟨k', w'⟩ := q
    obtain ⟨rfl, hw⟩ : k = k' ∧ S.value W w w' := hpq
    by_cases hk : key = k
    · subst hk
      exact .inr ⟨w, w', by simp, by simp, hw⟩
    · have hb : (key == k) = false := by simpa using hk
      simpa only [List.lookup_cons, hb] using ih

/-- A key is found in related entries or in neither, with related values. -/
theorem lookupKey_steps {es es' : List (String × Value)}
    (h : List.Forall₂ (EntryRel (S.value W)) es es') (key : String) :
    S.Steps S.value W (lookupKey es key) (lookupKey es' key) := by
  unfold lookupKey
  rcases lookup_eq h key with ⟨h₁, h₂⟩ | ⟨w, w', h₁, h₂, hw⟩
  · rw [h₁, h₂]
    exact Steps.raise (.refl _)
  · rw [h₁, h₂]
    exact Steps.pure hw

/-- Related values are entries with one key and related values, or neither is an entry. -/
theorem entry?_eq (h : S.value W v v') :
    (v.entry? = none ∧ v'.entry? = none) ∨
      ∃ p p', v.entry? = some p ∧ v'.entry? = some p' ∧ EntryRel (S.value W) p p' := by
  cases S.value_iff.1 h with
  | plain hp => cases v <;> first | exact .inl ⟨rfl, rfl⟩ | simp [Value.identity?] at hp
  | @pair i j k k' t t' hi hk ht =>
    cases S.value_iff.1 hk with
    | plain =>
      cases k with
      | symbol x => exact .inr ⟨(x, t), (x, t'), rfl, rfl, rfl, ht⟩
      | _ => exact .inl ⟨rfl, rfl⟩
    | _ => exact .inl ⟨rfl, rfl⟩
  | _ => exact .inl ⟨rfl, rfl⟩

/-- Related arguments are entries together. -/
theorem mapM_entry?_eq (h : List.Forall₂ (S.value W) args args') :
    (args.mapM Value.entry? = none ∧ args'.mapM Value.entry? = none) ∨
      ∃ es es', args.mapM Value.entry? = some es ∧ args'.mapM Value.entry? = some es' ∧
        List.Forall₂ (EntryRel (S.value W)) es es' := by
  induction h with
  | nil => exact .inr ⟨[], [], rfl, rfl, .nil⟩
  | cons hv _ ih =>
    simp only [List.mapM_cons]
    rcases entry?_eq hv with ⟨h₁, h₂⟩ | ⟨p, p', h₁, h₂, hp⟩
    · exact .inl ⟨by rw [h₁]; rfl, by rw [h₂]; rfl⟩
    · rcases ih with ⟨h₃, h₄⟩ | ⟨es, es', h₃, h₄, hes⟩
      · exact .inl ⟨by rw [h₁, h₃]; rfl, by rw [h₂, h₄]; rfl⟩
      · exact .inr ⟨p :: es, p' :: es', by rw [h₁, h₃]; rfl, by rw [h₂, h₄]; rfl, .cons hp hes⟩

/-! ## All primitives -/

theorem car_steps (h : List.Forall₂ (S.value W) args args') :
    S.Steps S.value W (apply .car args) (apply .car args') := by
  refine unary_steps .car h fun a a' _ _ ha => ?_
  have hm := mismatch_steps (R := S.value) .car .pair h
  cases S.value_iff.1 ha with
  | plain hp => cases a <;> first | exact hm | simp [Value.identity?] at hp
  | pair _ hh _ => exact Steps.pure hh
  | _ => exact hm

theorem cdr_steps (h : List.Forall₂ (S.value W) args args') :
    S.Steps S.value W (apply .cdr args) (apply .cdr args') := by
  refine unary_steps .cdr h fun a a' _ _ ha => ?_
  have hm := mismatch_steps (R := S.value) .cdr .pair h
  cases S.value_iff.1 ha with
  | plain hp => cases a <;> first | exact hm | simp [Value.identity?] at hp
  | pair _ _ ht => exact Steps.pure ht
  | _ => exact hm

theorem stringEq_steps (h : List.Forall₂ (S.value W) args args') :
    S.Steps S.value W (apply .stringEq args) (apply .stringEq args') := by
  refine binary_steps .stringEq h fun a a' b b' _ _ ha hb => ?_
  have hm := mismatch_steps (R := S.value) .stringEq .strings h
  cases S.value_iff.1 ha with
  | plain =>
    cases S.value_iff.1 hb with
    | plain =>
      split
      · exact truth_steps _
      · exact hm
    | _ => cases a <;> exact hm
  | _ => exact hm

theorem dict_steps (h : List.Forall₂ (S.value W) args args') :
    S.Steps S.value W (apply .dict args) (apply .dict args') := by
  simp only [apply]
  rcases mapM_entry?_eq h with ⟨h₁, h₂⟩ | ⟨es, es', h₁, h₂, hes⟩
  · rw [h₁, h₂]
    exact mismatch_steps .dict _ h
  · rw [h₁, h₂]
    exact newDict_steps hes

theorem get_steps (h : List.Forall₂ (S.value W) args args') :
    S.Steps S.value W (apply .get args) (apply .get args') := by
  refine binary_steps .get h fun d d' k k' _ _ hd hk => ?_
  have hm := mismatch_steps (R := S.value) .get .getShape h
  cases S.value_iff.1 hd with
  | plain hp => cases d <;> first | exact hm | simp [Value.identity?] at hp
  | dict _ hes =>
    cases S.value_iff.1 hk with
    | plain =>
      cases k with
      | symbol key => exact lookupKey_steps hes key
      | _ => exact hm
    | _ => exact hm
  | _ => exact hm

/-- `bind` refuses any number of arguments but three. -/
theorem apply_bind_of_length_ne (h : args.length ≠ 3) :
    apply .bind args = wrongArity .bind 3 args := by
  simp only [apply]
  split
  · simp at h
  · simp at h
  · rfl

theorem bind_three_steps {d d' k k' w w' : Value} (hd : S.value W d d') (hk : S.value W k k')
    (hw : S.value W w w') :
    S.Steps S.value W (apply .bind [d, k, w]) (apply .bind [d', k', w']) := by
  have hm := mismatch_steps (R := S.value) .bind .bindShape (.cons hd (.cons hk (.cons hw .nil)))
  cases S.value_iff.1 hd with
  | plain hp => cases d <;> first | exact hm | simp [Value.identity?] at hp
  | dict _ hes =>
    cases S.value_iff.1 hk with
    | plain =>
      cases k with
      | symbol key => exact newDict_steps (.cons ⟨rfl, hw⟩ hes)
      | _ => exact hm
    | _ => exact hm
  | _ => exact hm

theorem bind_steps (h : List.Forall₂ (S.value W) args args') :
    S.Steps S.value W (apply .bind args) (apply .bind args') := by
  by_cases hl : args.length = 3
  · obtain ⟨d, k, w, rfl⟩ := List.length_eq_three.1 hl
    rcases h with _ | ⟨hd, _ | ⟨hk, _ | ⟨hw, _ | _⟩⟩⟩
    exact bind_three_steps hd hk hw
  · rw [apply_bind_of_length_ne hl, apply_bind_of_length_ne (h.length_eq ▸ hl)]
    exact wrongArity_steps .bind 3 h.length_eq

/-- **Every primitive keeps step** on related arguments. -/
theorem apply_steps (op : Primitive) (h : List.Forall₂ (S.value W) args args') :
    S.Steps S.value W (op.apply args) (op.apply args') := by
  cases op with
  | add | mul => exact onNumbers_steps _ _ h
  | sub => exact onTwoNumbers_steps .sub h fun _ _ => arithmetic_steps _
  | div =>
    refine onTwoNumbers_steps .div h fun m n => ?_
    by_cases hz : n.isZero = true
    · simp only [hz, if_true]
      exact mismatch_steps .div _ h
    · simp only [hz]
      exact arithmetic_steps _
  | gt | lt => exact comparison_steps _ _ _ h
  | numEq =>
    refine binary_steps .numEq h fun a a' b b' _ _ ha hb => ?_
    intro s s' hs
    rw [numEqual_eq hs ha hb]
    exact truth_steps _ s s' hs
  | eq =>
    refine binary_steps .eq h fun a a' b b' _ _ ha hb => ?_
    rw [atomEqual_eq ha hb]
    exact truth_steps _
  | stringEq => exact stringEq_steps h
  | and | or => exact onBooleans_steps _ _ h
  | not => exact question_steps .not (fun _ _ => isFalse_eq) h
  | isPair | isNumber | isBoolean | isSymbol | isString | isDict =>
    exact question_steps _ (fun _ _ ha => by cases S.value_iff.1 ha <;> rfl) h
  | cons => exact binary_steps .cons h fun _ _ _ _ _ _ ha hb => newPair_steps ha hb
  | car => exact car_steps h
  | cdr => exact cdr_steps h
  | list => exact newList_steps h
  | dict => exact dict_steps h
  | get => exact get_steps h
  | bind => exact bind_steps h

end Simulation

end Lambdict
