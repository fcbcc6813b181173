import Lambdict.Proofs.Simulation.Primitive
import Mathlib.Data.List.Infix

/-!
# The wording of messages

A message shows the values it is about, and of a closure it shows the parameters and the body.
These are what desugaring changes: the body has calls in place of literals, and a search draws names
that the program would have drawn later.  Everything else that is shown of two related values is the
same.

A simulation says in which texts this shows (`Simulation.Wording`), as a condition that goes over
from a text to all texts that it is part of.  Where it does not hold, a text about related values
says the same (`SaysSame`).  Which complaint a primitive has depends on what related arguments have
in common (`Primitive.Refusal`).  Hence its messages say the same too
(`Primitive.Refusal.saysSame`).
-/

namespace Lambdict

/-- **Whether a text shows another.** -/
def Shows (part s : String) : Prop := part.toList <:+: s.toList

instance (part s : String) : Decidable (Shows part s) :=
  decidable_of_iff (s.toList.tails.any (part.toList.isPrefixOf ·) = true) <| by
    simp only [Shows, List.infix_iff_prefix_suffix, List.any_eq_true, List.mem_tails,
      List.isPrefixOf_iff_prefix, and_comm]

theorem Shows.self (s : String) : Shows s s := List.infix_rfl

/-- What a text shows is shown by the text with another after it. -/
theorem Shows.append_right {part s : String} (h : Shows part s) (t : String) :
    Shows part (s ++ t) := by
  rw [Shows, String.toList_append]
  exact h.trans (List.prefix_append _ _).isInfix

/-- What a text shows is shown by the text with another before it. -/
theorem Shows.append_left {part t : String} (s : String) (h : Shows part t) :
    Shows part (s ++ t) := by
  rw [Shows, String.toList_append]
  exact h.trans (List.suffix_append _ _).isInfix

/-- **A condition on texts that grows** with them: it goes over to all texts that a text is part
of. -/
class Grows (P : String → Prop) : Prop where
  append_right : ∀ {s} t, P s → P (s ++ t)
  append_left : ∀ s {t}, P t → P (s ++ t)

/-- **A second text says the same as a first**, unless a condition holds of the first. -/
def SaysSame (P : String → Prop) (s s' : String) : Prop := ¬ P s → s' = s

variable {P : String → Prop}

@[refl]
theorem SaysSame.refl (s : String) : SaysSame P s s := fun _ => rfl

theorem SaysSame.of_eq {s s' : String} (h : s' = s) : SaysSame P s s' := fun _ => h

/-- Two texts that each say the same say the same together. -/
theorem SaysSame.append [Grows P] {s s' t t' : String} (hs : SaysSame P s s')
    (ht : SaysSame P t t') : SaysSame P (s ++ t) (s' ++ t') := by
  intro hn
  rw [hs fun h => hn (Grows.append_right t h), ht fun h => hn (Grows.append_left s h)]

/-- Texts that each say the same say the same when they are joined. -/
theorem SaysSame.intercalate [Grows P] (sep : String) {ss ss' : List String}
    (h : List.Forall₂ (SaysSame P) ss ss') :
    SaysSame P (sep.intercalate ss) (sep.intercalate ss') := by
  induction h with
  | nil => exact .refl _
  | cons hs hrest ih =>
    cases hrest with
    | nil => simpa using hs
    | cons =>
      rw [String.intercalate_cons_cons, String.intercalate_cons_cons]
      exact (hs.append (.refl sep)).append ih

/-- A text between two others. -/
theorem SaysSame.between [Grows P] (before after : String) {s s' : String}
    (h : SaysSame P s s') : SaysSame P (before ++ s ++ after) (before ++ s' ++ after) :=
  ((SaysSame.refl before).append h).append (.refl after)

/-- A text says the same when it stands at the end of a list. -/
theorem SaysSame.inChain [Grows P] (tail : Bool) {s s' : String} (h : SaysSame P s s') :
    SaysSame P (inChain tail s) (inChain tail s') := by
  cases tail with
  | false => exact h
  | true => exact h.between " . " ")"

/-- A closure as a value. -/
def closureText (ps : List String) (b : List Expr) : String :=
  "<Closure (" ++ " ".intercalate ps ++ ")" ++ Expr.textAll b ++ ">"

/-- **Where a simulation rewords a text**: in texts of which a growing condition holds.  In other
texts related closures are shown alike, as values and in the message about the number of their
arguments, and so is an argument that has no literal. -/
structure Simulation.Wording (S : Simulation) (P : String → Prop) : Prop where
  closure : ∀ {W ps b ps' b'}, S.closure W ps b ps' b' →
    SaysSame P (closureText ps b) (closureText ps' b')
  arity : ∀ {W ps b ps' b'}, S.closure W ps b ps' b' → ∀ n,
    SaysSame P (Condition.closureArity ps n).message (Condition.closureArity ps' n).message
  literals : ∀ {W args args'}, List.Forall₂ (S.value W) args args' →
    ∀ {c c'}, Value.literals? args = .error c → Value.literals? args' = .error c' →
      SaysSame P c.message c'.message

namespace Simulation

variable {S : Simulation} {W : S.World} [Grows P]

mutual

/-- **The texts of related values say the same.** -/
theorem Wording.textIn (hS : S.Wording P) (quote : Bool) : ∀ (v : Value) {v' : Value} (tail : Bool),
    S.value W v v' → SaysSame P (v.textIn quote tail) (v'.textIn quote tail)
  | .pair i h t, v', tail, hv => by
    cases S.value_iff.1 hv with
    | plain => exact .refl _
    | pair _ hh ht =>
      simp only [Value.textIn]
      exact ((SaysSame.refl _).append (hS.textIn quote h false hh)).append
        (hS.textIn quote t true ht)
  | .closure i ps b, v', tail, hv => by
    cases S.value_iff.1 hv with
    | plain => exact .refl _
    | closure _ hc => exact (hS.closure hc).inChain tail
  | .dict i es, v', tail, hv => by
    cases S.value_iff.1 hv with
    | plain => exact .refl _
    | dict _ hes =>
      simp only [Value.textIn]
      have hentries := SaysSame.intercalate " " (hS.textEntries es hes)
      exact (hentries.between "#dict(" ")").inChain tail
  | .code _ _, _, _, hv | .sequence _ _, _, _, hv => by
    cases S.value_iff.1 hv
    all_goals
      simp only [Value.textIn]
      exact .refl _
  | .nothing, _, _, hv | .number _, _, _, hv | .boolean _, _, _, hv | .string _, _, _, hv
  | .symbol _, _, _, hv | .empty, _, _, hv | .prim _, _, _, hv => by
    cases S.value_iff.1 hv
    exact .refl _

/-- The texts of related entries say the same. -/
theorem Wording.textEntries (hS : S.Wording P) :
    ∀ (es : List (String × Value)) {es' : List (String × Value)},
    List.Forall₂ (EntryRel (S.value W)) es es' →
    List.Forall₂ (SaysSame P) (Value.textEntries es) (Value.textEntries es')
  | [], _, .nil => .nil
  | (k, v) :: es, (k', v') :: es', .cons hp hes => by
    obtain ⟨rfl, hv⟩ : k = k' ∧ S.value W v v' := hp
    exact .cons ((hS.textIn false v false hv).between _ ")") (hS.textEntries es hes)

end

/-- The texts of related arguments say the same. -/
theorem Wording.argumentsText (hS : S.Wording P) {args args' : List Value}
    (h : List.Forall₂ (S.value W) args args') :
    SaysSame P (argumentsText args) (argumentsText args') := by
  have htexts : List.Forall₂ (SaysSame P) (args.map Value.text) (args'.map Value.text) := by
    rw [List.forall₂_map_left_iff, List.forall₂_map_right_iff]
    exact h.imp fun v _ hv => hS.textIn false v false hv
  exact (SaysSame.intercalate ", " htexts).between "[" "]"

end Simulation

/-! ## What ends an evaluation -/

/-- An evaluation that fails only with errors of some kind. -/
def Eval.FailsOnly {α : Type} (P : Error → Prop) (x : Eval α) : Prop :=
  ∀ s e t, x s = some (.error e, t) → P e

namespace Eval.FailsOnly

variable {α β : Type} {P : Error → Prop}

theorem pure (a : α) : FailsOnly P (pure a : Eval α) := by
  rintro s e t ⟨⟩

theorem fail {e : Error} (h : P e) : FailsOnly P (fail e : Eval α) := by
  rintro s e t ⟨⟩
  exact h

theorem newIdentity : FailsOnly P newIdentity := by
  rintro s e t ⟨⟩

/-- A sequence of evaluations that fail only in some way fails only so. -/
theorem bind {x : Eval α} {f : α → Eval β} (hx : FailsOnly P x) (hf : ∀ a, FailsOnly P (f a)) :
    FailsOnly P (x >>= f) := by
  intro s e t h
  rw [Eval.bind_apply] at h
  cases hxs : x s with
  | none =>
    rw [hxs] at h
    cases h
  | some o =>
    obtain ⟨_ | a, u⟩ := o
    · rw [hxs] at h
      cases h
      exact hx s _ _ hxs
    · rw [hxs] at h
      exact hf a u e t h

end Eval.FailsOnly

/-! ## What primitives complain about -/

namespace Primitive

/-- How many arguments a primitive of a fixed number takes. -/
def arity : Primitive → Nat
  | .not | .isPair | .isNumber | .isBoolean | .isSymbol | .isString | .isDict | .car | .cdr => 1
  | .bind => 3
  | _ => 2

/-- What a primitive has against arguments that it does not take.  Only a division has two
complaints. -/
def complaintAbout (args : List Value) : Primitive → Complaint
  | .div => if (args.mapM Value.number?).isSome then .divisionByZero else .numbers
  | .gt | .lt => .ordered
  | .stringEq => .strings
  | .and | .or => .booleans
  | .car | .cdr => .pair
  | .dict => .entries
  | .get => .getShape
  | .bind => .bindShape
  | _ => .numbers

/-- **The errors of a primitive** on some arguments. -/
inductive Refusal (op : Primitive) (args : List Value) : Error → Prop
  | abort (a : Abort) : Refusal op args (.abort a)
  | arity : Refusal op args (.condition (.primitiveArity op op.arity args.length))
  | mismatch :
      Refusal op args (.condition (.typeMismatch op (argumentsText args) (op.complaintAbout args)))
  | key (k : String) : Refusal op args (.condition (.keyNotFound k))

open Eval (FailsOnly)

variable {op : Primitive} {args : List Value} {α : Type}

/-- What a primitive says of arguments that it does not take is a refusal. -/
theorem mismatch_refusal {c : Complaint} (h : c = op.complaintAbout args) :
    FailsOnly (op.Refusal args) (op.mismatch args c : Eval α) := by
  subst h
  unfold mismatch renderArguments guardText
  split
  · exact .fail .mismatch
  · exact .fail (.abort _)

theorem wrongArity_refusal : FailsOnly (op.Refusal args) (op.wrongArity op.arity args : Eval α) :=
  .fail .arity

/-- Arithmetic fails only with an abort. -/
theorem arithmetic_refusal (r : Except ArithmeticFault Number) :
    FailsOnly (op.Refusal args) (arithmetic r) := by
  cases r with
  | error e => exact .fail (.abort _)
  | ok n => exact .pure _

/-- A primitive of one argument refuses others, or fails as what it does with the argument. -/
theorem unary_refusal {f : Value → Eval Value} (harity : op.arity = 1)
    (hf : ∀ a, args = [a] → FailsOnly (op.Refusal args) (f a)) :
    FailsOnly (op.Refusal args) (op.unary args f) := by
  unfold unary
  split
  · exact hf _ rfl
  · rw [← harity]
    exact wrongArity_refusal

/-- A primitive of two arguments refuses others, or fails as what it does with the two. -/
theorem binary_refusal {f : Value → Value → Eval Value} (harity : op.arity = 2)
    (hf : ∀ a b, args = [a, b] → FailsOnly (op.Refusal args) (f a b)) :
    FailsOnly (op.Refusal args) (op.binary args f) := by
  unfold binary
  split
  · exact hf _ _ rfl
  · rw [← harity]
    exact wrongArity_refusal

/-- Arithmetic on two numbers refuses what are not two numbers. -/
theorem onTwoNumbers_refusal {f : Number → Number → Eval Value} (harity : op.arity = 2)
    (hc : (args.mapM Value.number?).isSome = false → op.complaintAbout args = .numbers)
    (hf : ∀ m n, (args.mapM Value.number?).isSome = true → FailsOnly (op.Refusal args) (f m n)) :
    FailsOnly (op.Refusal args) (op.onTwoNumbers args f) := by
  refine binary_refusal harity ?_
  rintro a b rfl
  split
  · next m n hm hn => exact hf m n (by simp [hm, hn])
  · next hne =>
    refine mismatch_refusal (hc ?_).symm
    rw [Option.isSome_eq_false_iff, Option.isNone_iff_eq_none]
    cases hm : a.number? with
    | none => simp [hm]
    | some m =>
      cases hn : b.number? with
      | none => simp [hm, hn]
      | some n => exact absurd hn (hne m n hm)

/-- Arithmetic refuses arguments that are not all numbers. -/
theorem onNumbers_refusal (hc : op.complaintAbout args = .numbers)
    (f : List Number → Except ArithmeticFault Number) :
    FailsOnly (op.Refusal args) (op.onNumbers args f) := by
  unfold onNumbers
  split
  · exact arithmetic_refusal _
  · exact mismatch_refusal hc.symm

/-- A connective refuses arguments that are not all booleans. -/
theorem onBooleans_refusal (hc : op.complaintAbout args = .booleans) (f : List Bool → Bool) :
    FailsOnly (op.Refusal args) (op.onBooleans args f) := by
  unfold onBooleans
  split
  · exact .pure _
  · exact mismatch_refusal hc.symm

theorem newPair_refusal (h t : Value) : FailsOnly (op.Refusal args) (newPair h t) :=
  .bind .newIdentity fun _ => .pure _

theorem newList_refusal (vs : List Value) : FailsOnly (op.Refusal args) (newList vs) := by
  induction vs with
  | nil => exact .pure _
  | cons v vs ih => exact .bind ih fun _ => newPair_refusal _ _

theorem newDict_refusal (es : List (String × Value)) : FailsOnly (op.Refusal args) (newDict es) :=
  .bind .newIdentity fun _ => .pure _

/-- To look for a key fails only where the key is not found. -/
theorem lookupKey_refusal (es : List (String × Value)) (k : String) :
    FailsOnly (op.Refusal args) (lookupKey es k) := by
  unfold lookupKey
  split
  · exact .pure _
  · exact .fail (.key k)

/-- **How a primitive can fail.** -/
theorem apply_refusal (op : Primitive) (args : List Value) :
    FailsOnly (op.Refusal args) (op.apply args) := by
  cases op with
  | add | mul => exact onNumbers_refusal rfl _
  | sub => exact onTwoNumbers_refusal rfl (fun _ => rfl) fun _ _ _ => arithmetic_refusal _
  | div =>
    refine onTwoNumbers_refusal rfl (fun h => ?_) fun m n h => ?_
    · simp only [complaintAbout, h]
      rfl
    · split
      · exact mismatch_refusal (by simp only [complaintAbout, h, if_true])
      · exact arithmetic_refusal _
  | gt | lt =>
    refine binary_refusal rfl fun a b _ => ?_
    split
    · exact .pure _
    · exact .pure _
    · exact mismatch_refusal rfl
  | numEq | eq => exact binary_refusal rfl fun _ _ _ => .pure _
  | stringEq =>
    refine binary_refusal rfl fun a b _ => ?_
    split
    · exact .pure _
    · exact mismatch_refusal rfl
  | and | or => exact onBooleans_refusal rfl _
  | not | isPair | isNumber | isBoolean | isSymbol | isString | isDict =>
    exact unary_refusal rfl fun _ _ => .pure _
  | cons => exact binary_refusal rfl fun _ _ _ => newPair_refusal _ _
  | car | cdr =>
    refine unary_refusal rfl fun a _ => ?_
    split
    · exact .pure _
    · exact mismatch_refusal rfl
  | list => exact newList_refusal args
  | dict =>
    simp only [apply]
    split
    · exact newDict_refusal _
    · exact mismatch_refusal rfl
  | get =>
    refine binary_refusal rfl fun d k _ => ?_
    split
    · exact lookupKey_refusal _ _
    · exact mismatch_refusal rfl
  | bind =>
    simp only [apply]
    split
    · exact newDict_refusal _
    · exact mismatch_refusal rfl
    · exact wrongArity_refusal

/-- **The complaint about related arguments is the same.** -/
theorem complaintAbout_eq {S : Simulation} {W : S.World} {args' : List Value}
    (hargs : List.Forall₂ (S.value W) args args') :
    op.complaintAbout args' = op.complaintAbout args := by
  unfold complaintAbout
  rw [Simulation.mapM_number?_eq hargs]

/-- **A primitive says the same about related arguments.** -/
theorem Refusal.saysSame [Grows P] {S : Simulation} (hS : S.Wording P) {W : S.World}
    {args' : List Value} {e e' : Error} (h : op.Refusal args e) (h' : op.Refusal args' e')
    (halike : e.Alike e') (hargs : List.Forall₂ (S.value W) args args') :
    SaysSame P e.message e'.message := by
  cases halike with
  | abort => rfl
  | condition hc =>
    cases h with
    | arity =>
      cases h' with
      | arity => rw [hargs.length_eq]
      | mismatch | key => exact absurd hc.kind (by simp [Condition.kind])
    | mismatch =>
      cases h' with
      | mismatch =>
        have hwords : SaysSame P (op.name ++ ": " ++ (op.complaintAbout args).text ++ " ") _ :=
          .refl _
        rw [complaintAbout_eq hargs]
        exact hwords.append (hS.argumentsText hargs)
      | arity | key => exact absurd hc.kind (by simp [Condition.kind])
    | key k =>
      cases h' with
      | key k' =>
        obtain rfl : k = k' := Option.some.inj hc.key
        rfl
      | arity | mismatch => exact absurd hc.kind (by simp [Condition.kind])

end Primitive

end Lambdict
