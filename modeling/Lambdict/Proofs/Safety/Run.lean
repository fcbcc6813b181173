import Lambdict.Proofs.Number.Arithmetic
import Lambdict.Proofs.Collected
import Lambdict.Proofs.Depth
import Lambdict.Proofs.Parsed
import Lambdict.Proofs.Safety.Checks
import Lambdict.Proofs.Search

/-!
# Safe runs

A valid program cannot go wrong in its structure.  Whatever its run does, it holds valid values
only, and so every closure it calls is renamed, its arguments are turned into literals and put in
without any check on expressions failing.  It ends with a value, or with an error of a kind that
its own operations have (`Error.Expected`); it never ends with a complaint about malformed
expressions.

To say so of all that happens in a run, the run is compared with one that makes every check there is
(`runProgramChecked`).  Step by step, the two are one evaluation, and that evaluation is safe
(`Eval.Checks`).
-/

namespace Lambdict

/-- The kinds of conditions that the operations of a run raise. -/
def Condition.runKinds : List String :=
  ["UnboundVariable", "ArityError", "NotApplicable", "KeyNotFound", "TypeMismatch",
    "EmptySequence", "NonLiteralizableValue"]

/-- **The errors that a valid program can end with**: a condition of one of the kinds that a run
raises, an overflow, or an integer that is too long to be shown.  A zero divisor is none of them. -/
def Error.Expected : Error → Prop
  | .condition c => c.kind ∈ Condition.runKinds
  | .abort (.arithmetic fault) => fault.isOverflow = true
  | .abort .longNumber => True
  | .abort _ => False

example (fault : Malformed) : ¬ (Error.condition (.malformed fault)).Expected := by
  simp [Error.Expected, Condition.kind, Condition.runKinds]

namespace Eval

variable {α β : Type} {P : α → Prop} {Q : β → Prop}

/-- Wherever an evaluation ends, it ends with a value as `P` says, or with an expected error. -/
def Safe (P : α → Prop) (x : Eval α) : Prop :=
  ∀ s r t, x s = some (r, t) → (∃ a, r = .ok a ∧ P a) ∨ ∃ e, r = .error e ∧ e.Expected

theorem Safe.pure {a : α} (h : P a) : Safe P (pure a : Eval α) := by
  intro s r t hr
  cases hr
  exact .inl ⟨a, rfl, h⟩

theorem Safe.fail {e : Error} (h : e.Expected) : Safe P (fail e : Eval α) := by
  intro s r t hr
  cases hr
  exact .inr ⟨e, rfl, h⟩

theorem Safe.raise {c : Condition} (h : c.kind ∈ Condition.runKinds) :
    Safe P (raise c : Eval α) :=
  Safe.fail h

/-- A result is safe if its value is as it should be and its error is expected. -/
theorem Safe.ofExcept {r : Except Error α} (hok : ∀ a, r = .ok a → P a)
    (herr : ∀ e, r = .error e → e.Expected) : Safe P (ofExcept r) := by
  cases r with
  | ok a => exact Safe.pure (hok a rfl)
  | error e => exact Safe.fail (herr e rfl)

/-- **Safe evaluations may follow one another**, each from what the one before gives. -/
theorem Safe.bind {x : Eval α} {f : α → Eval β} (hx : Safe P x)
    (hf : ∀ a, P a → Safe Q (f a)) : Safe Q (x >>= f) := by
  intro s r t hr
  rw [bind_apply] at hr
  cases hxs : x s with
  | none => simp [hxs] at hr
  | some o =>
    obtain ⟨r', t'⟩ := o
    rw [hxs] at hr
    rcases hx s r' t' hxs with ⟨a, rfl, ha⟩ | ⟨e, rfl, he⟩
    · exact hf a ha t' r t hr
    · cases hr
      exact .inr ⟨e, rfl, he⟩

/-- An evaluation that makes checks is the evaluation without them, and that one is safe. -/
structure Checks (P : α → Prop) (x y : Eval α) : Prop where
  same : x = y
  safe : Safe P y

theorem Safe.checks {x : Eval α} (h : Safe P x) : Checks P x x := ⟨rfl, h⟩

/-- Evaluations whose checks all pass may follow one another. -/
theorem Checks.bind {x y : Eval α} {f g : α → Eval β} (hx : Checks P x y)
    (hf : ∀ a, P a → Checks Q (f a) (g a)) : Checks Q (x >>= f) (y >>= g) := by
  refine ⟨?_, hx.safe.bind fun a ha => (hf a ha).safe⟩
  rw [hx.same]
  funext s
  rw [bind_apply, bind_apply]
  cases hy : y s with
  | none => rfl
  | some o =>
    obtain ⟨r, t⟩ := o
    -- only a value that the first part can give has to be gone on with
    rcases hx.safe s r t hy with ⟨a, rfl, ha⟩ | ⟨e, rfl, -⟩
    · exact congrFun (hf a ha).same t
    · rfl

theorem Safe.newIdentity : Safe (fun _ => True) newIdentity := by
  intro s r t hr
  cases hr
  exact .inl ⟨_, rfl, trivial⟩

/-- A text is made, or refused for a number that is too long. -/
theorem Safe.ofAbort_guardText (writable : Bool) (text : String) :
    Safe (fun _ => True) (ofAbort (guardText writable text)) := by
  refine Safe.ofExcept (fun _ _ => trivial) fun e he => ?_
  unfold guardText at he
  split at he
  · cases he
  · cases he
    trivial

end Eval

open Eval (Safe Checks)

/-! ## Primitives -/

/-- A property that values pass on: it holds of what arithmetic and questions give, of a pair as of
both its parts, and of what a dictionary holds. -/
structure Value.PassedOn (P : Value → Prop) : Prop where
  number : ∀ n, P (.number n)
  boolean : ∀ b, P (.boolean b)
  empty : P .empty
  pair : ∀ {id h t}, P (.pair id h t) ↔ P h ∧ P t
  lookup : ∀ {id es k v}, P (.dict id es) → es.lookup k = some v → P v

theorem Value.passedOn_valid : Value.PassedOn Value.Valid where
  number _ := trivial
  boolean _ := trivial
  empty := trivial
  pair := Iff.rfl
  lookup h hv := by
    obtain ⟨l₁, l₂, rfl, -⟩ := List.lookup_eq_some_iff.1 hv
    exact Value.validEntries_iff.1 h _ (by simp)

namespace Primitive

section

variable {α : Type} {Q : α → Prop}

/-- Arguments of a wrong type are a condition that is expected. -/
theorem mismatch_safe (op : Primitive) (args : List Value) (complaint : Complaint) :
    Safe Q (op.mismatch args complaint : Eval α) :=
  (Safe.ofAbort_guardText _ _).bind fun _ _ =>
    Safe.raise (by simp [Condition.kind, Condition.runKinds])

/-- A wrong number of arguments is a condition that is expected. -/
theorem wrongArity_safe (op : Primitive) (n : Nat) (args : List Value) :
    Safe Q (op.wrongArity n args : Eval α) :=
  Safe.raise (by simp [Condition.kind, Condition.runKinds])

end

section

variable {P : Value → Prop} (hP : Value.PassedOn P) {op : Primitive} {args : List Value}

include hP

/-- Arithmetic is safe where it does not divide by zero. -/
theorem arithmetic_safe {r : Except ArithmeticFault Number}
    (hfault : ∀ f, r = .error f → f.isOverflow = true) : Safe P (arithmetic r) := by
  have hr : Safe (fun _ => True) (Eval.ofAbort (r.mapError .arithmetic)) := by
    refine Safe.ofExcept (fun _ _ => trivial) fun e he => ?_
    cases r with
    | ok n => cases he
    | error f =>
      cases he
      exact hfault f rfl
  exact hr.bind fun n _ => Safe.pure (hP.number n)

theorem truth_safe (b : Bool) : Safe P (truth b) :=
  Safe.pure (hP.boolean b)

omit hP in
/-- A primitive of one argument is safe if what it does with it is. -/
theorem unary_safe {f : Value → Eval Value} (hargs : ∀ v ∈ args, P v)
    (hf : ∀ a, P a → Safe P (f a)) : Safe P (op.unary args f) := by
  unfold unary
  split
  · next a => exact hf a (hargs a (by simp))
  · exact wrongArity_safe op 1 args

omit hP in
/-- A primitive of two arguments is safe if what it does with them is. -/
theorem binary_safe {f : Value → Value → Eval Value} (hargs : ∀ v ∈ args, P v)
    (hf : ∀ a b, P a → P b → Safe P (f a b)) : Safe P (op.binary args f) := by
  unfold binary
  split
  · next a b => exact hf a b (hargs a (by simp)) (hargs b (by simp))
  · exact wrongArity_safe op 2 args

/-- Arithmetic is safe if it fails only for size. -/
theorem onNumbers_safe {f : List Number → Except ArithmeticFault Number}
    (hf : ∀ ns g, f ns = .error g → g.isOverflow = true) : Safe P (op.onNumbers args f) := by
  unfold onNumbers
  split
  · exact arithmetic_safe hP (hf _)
  · exact mismatch_safe op args .numbers

omit hP in
theorem onTwoNumbers_safe {f : Number → Number → Eval Value} (hargs : ∀ v ∈ args, P v)
    (hf : ∀ m n, Safe P (f m n)) : Safe P (op.onTwoNumbers args f) := by
  refine binary_safe hargs fun a b _ _ => ?_
  split
  · exact hf _ _
  · exact mismatch_safe op args .numbers

theorem comparison_safe (hargs : ∀ v ∈ args, P v) (onNumber : Number → Number → Bool)
    (onString : String → String → Bool) : Safe P (op.comparison args onNumber onString) := by
  refine binary_safe hargs fun a b _ _ => ?_
  split
  · exact truth_safe hP _
  · exact truth_safe hP _
  · exact mismatch_safe op args .ordered

theorem onBooleans_safe (f : List Bool → Bool) : Safe P (op.onBooleans args f) := by
  unfold onBooleans
  split
  · exact truth_safe hP _
  · exact mismatch_safe op args .booleans

theorem question_safe (hargs : ∀ v ∈ args, P v) (f : Value → Bool) :
    Safe P (op.question args f) :=
  unary_safe hargs fun _ _ => truth_safe hP _

theorem newPair_safe {h t : Value} (hh : P h) (ht : P t) : Safe P (newPair h t) :=
  Safe.newIdentity.bind fun _ _ => Safe.pure (hP.pair.2 ⟨hh, ht⟩)

/-- A list of arguments is made safely. -/
theorem newList_safe {vs : List Value} (h : ∀ v ∈ vs, P v) : Safe P (newList vs) := by
  induction vs with
  | nil => exact Safe.pure hP.empty
  | cons v vs ih =>
    obtain ⟨hv, hvs⟩ := List.forall_mem_cons.1 h
    exact (ih hvs).bind fun t ht => newPair_safe hP hv ht

/-- To look for a key gives a value of the dictionary or an expected condition. -/
theorem lookupKey_safe {id : Identity} {es : List (String × Value)} (h : P (.dict id es))
    (key : String) : Safe P (lookupKey es key) := by
  unfold lookupKey
  split
  · next v hv => exact Safe.pure (hP.lookup h hv)
  · exact Safe.raise (by simp [Condition.kind, Condition.runKinds])

/-- **Primitives pass values on safely**, apart from the two that make dictionaries. -/
theorem apply_passesOn (op : Primitive) (hdict : op ≠ .dict) (hbind : op ≠ .bind)
    (hargs : ∀ v ∈ args, P v) : Safe P (op.apply args) := by
  cases op with
  | add | mul =>
    exact onNumbers_safe hP fun _ _ => Number.foldlM_fault fun _ _ _ => Number.arith_fault
  | sub => exact onTwoNumbers_safe hargs fun _ _ => arithmetic_safe hP fun _ => Number.arith_fault
  | div =>
    refine onTwoNumbers_safe hargs fun m n => ?_
    split
    · exact mismatch_safe _ _ _
    · next hn =>
      -- the divisor was seen not to be zero
      exact arithmetic_safe hP fun _ => Number.div_fault (Bool.eq_false_iff.2 hn)
  | gt | lt => exact comparison_safe hP hargs _ _
  | numEq | eq => exact binary_safe hargs fun _ _ _ _ => truth_safe hP _
  | stringEq =>
    refine binary_safe hargs fun a b _ _ => ?_
    split
    · exact truth_safe hP _
    · exact mismatch_safe _ _ _
  | and | or => exact onBooleans_safe hP _
  | not | isPair | isNumber | isBoolean | isSymbol | isString | isDict =>
    exact question_safe hP hargs _
  | cons => exact binary_safe hargs fun _ _ => newPair_safe hP
  | car =>
    refine unary_safe hargs fun a ha => ?_
    split
    · exact Safe.pure (hP.pair.1 ha).1
    · exact mismatch_safe _ _ _
  | cdr =>
    refine unary_safe hargs fun a ha => ?_
    split
    · exact Safe.pure (hP.pair.1 ha).2
    · exact mismatch_safe _ _ _
  | list => exact newList_safe hP hargs
  | get =>
    refine binary_safe hargs fun d k hd _ => ?_
    split
    · exact lookupKey_safe hP hd _
    · exact mismatch_safe _ _ _
  | dict => exact absurd rfl hdict
  | bind => exact absurd rfl hbind

end

/-- Valid entries make a valid dictionary. -/
theorem newDict_safe {es : List (String × Value)} (h : Value.ValidEntries es) :
    Safe Value.Valid (newDict es) :=
  Safe.newIdentity.bind fun _ _ => Safe.pure h

/-- The entries that valid arguments stand for are valid. -/
theorem validEntries_of_mapM {vs : List Value} {es : List (String × Value)}
    (hvs : ∀ v ∈ vs, v.Valid) (h : vs.mapM Value.entry? = some es) : Value.ValidEntries es := by
  induction Value.mapM_entry?_eq_some_iff.1 h with
  | nil => trivial
  | cons hv hrest ih =>
    obtain ⟨i, rfl⟩ := hv
    obtain ⟨hpair, hvs⟩ := List.forall_mem_cons.1 hvs
    exact ⟨hpair.2, ih hvs (Value.mapM_entry?_eq_some_iff.2 hrest)⟩

/-- **Primitives are safe.** -/
theorem apply_safe (op : Primitive) {args : List Value} (hargs : ∀ v ∈ args, v.Valid) :
    Safe Value.Valid (op.apply args) := by
  cases op with
  | dict =>
    simp only [apply]
    split
    · next es hes => exact newDict_safe (validEntries_of_mapM hargs hes)
    · exact mismatch_safe _ _ _
  | bind =>
    simp only [apply]
    split
    · next id es key v =>
      have hdict : (Value.dict id es).Valid := hargs _ (by simp)
      exact newDict_safe ⟨hargs v (by simp), hdict⟩
    · exact mismatch_safe _ _ _
    · exact wrongArity_safe _ 3 _
  | _ => exact apply_passesOn Value.passedOn_valid _ (by simp) (by simp) hargs

end Primitive

/-! ## Runs that make checks -/

/-- Renames a body and checks the nodes that this makes.  Names are drawn as `renameBody` draws
them. -/
def Eval.renameBodyChecked (body : List Expr) : Eval (List Expr) := fun s =>
  match Expr.renameAllChecked body s.names with
  | .ok (body', names) =>
    match renameBody body s with
    | some (.ok _, t) => some (.ok body', { t with names })
    | r => r
  | .error e => some (.error e, s)

/-- Applies a value; where this calls a closure, it checks every node that renaming, literals and
substitution make. -/
def Value.applyChecked (depth : Nat) (proc : Value) (args : List Value) : Eval Value :=
  match proc with
  | .closure _ params body =>
    match depth with
    | 0 => Eval.exhausted
    | depth + 1 =>
      if args.length = params.length then do
        let renamed ← Eval.renameBodyChecked body
        let literals ← Eval.ofExcept (literalsChecked args)
        let body' ← Eval.ofExcept (Expr.substSeqChecked (.ofLists params literals) renamed)
        Expr.evalSeqWith (applyChecked depth) .empty body'
      else Eval.raise (.closureArity params args.length)
  | proc => proc.applyAt depth args

/-- **Runs a program with all checks**: as `runProgram`, but every node that the run makes is
checked. -/
def runProgramChecked (depth : Nat) (program : List Expr) :
    Option (Except Error Value × Store) :=
  let placed := (Expr.placeAll 0 program).1
  Eval.reserving placed (Expr.evalSeqWith (Value.applyChecked depth) .empty placed)

/-! ## Evaluation -/

/-- An environment whose values are valid. -/
def Environment.Valid (env : Environment) : Prop :=
  Value.ValidEntries env.bindings

theorem Environment.valid_empty : Environment.empty.Valid := trivial

/-- What is bound in a valid environment is valid. -/
theorem Environment.Valid.lookup_safe {env : Environment} (h : env.Valid) (x : String) :
    Safe Value.Valid (Eval.ofCondition (env.lookup x)) := by
  unfold Environment.lookup
  split
  · next v hv =>
    obtain ⟨l₁, l₂, hl, -⟩ := List.lookup_eq_some_iff.1 hv
    exact Safe.pure (Value.validEntries_iff.1 h v (by simp [hl]))
  · exact Safe.raise (by simp [Condition.kind, Condition.runKinds])

/-- Two ways to apply valid values, the first with checks. -/
def Applier.Checks (A B : Applier) : Prop :=
  ∀ proc args, proc.Valid → (∀ v ∈ args, v.Valid) →
    Eval.Checks Value.Valid (A proc args) (B proc args)

namespace Expr

variable {A B : Applier} {env : Environment}

mutual

/-- **Evaluation is safe** for valid expressions that are no definitions. -/
theorem evalWith_checks (hA : Applier.Checks A B) (henv : env.Valid) :
    ∀ {e : Expr}, e.Valid → e.isDefinition = false →
      Checks Value.Valid (e.evalWith A env) (e.evalWith B env)
  | .number _, _, _ | .boolean _, _, _ | .string _, _, _ | .prim _, _, _ =>
    (Safe.pure trivial).checks
  | .quote _, h, _ => (Safe.pure h.2).checks
  | .var x, _, _ => (henv.lookup_safe x).checks
  | .lambda ps b, h, _ =>
    (Safe.newIdentity.bind fun id _ => Safe.pure (a := Value.closure id ps b) h).checks
  | .cond t c a, h, _ => by
    refine (evalWith_checks hA henv h.2.1 h.1.1).bind fun v _ => ?_
    split
    · exact evalWith_checks hA henv h.2.2.2 h.1.2.2
    · exact evalWith_checks hA henv h.2.2.1 h.1.2.1
  | .app f es, h, _ =>
    (evalWith_checks hA henv h.2.1 h.1.1).bind fun proc hproc =>
      (evalEachWith_checks hA henv h.2.2 h.1.2).bind fun args hargs => hA proc args hproc hargs
  | .dict es, h, _ =>
    (evalEntriesWith_checks hA henv h.2 h.1.2.2).bind fun _ hes =>
      (Primitive.newDict_safe hes).checks
  | .define _ _, _, hd => nomatch hd
  | .foreign _, h, _ => h.elim

/-- The checks in arguments all pass. -/
theorem evalEachWith_checks (hA : Applier.Checks A B) (henv : env.Valid) :
    ∀ {es : List Expr}, ValidAll es → (∀ e ∈ es, e.isDefinition = false) →
      Checks (fun vs => ∀ v ∈ vs, v.Valid) (evalEachWith A env es) (evalEachWith B env es)
  | [], _, _ => (Safe.pure fun _ hv => nomatch hv).checks
  | e :: es, h, hd => by
    obtain ⟨he, hes⟩ := List.forall_mem_cons.1 hd
    refine (evalWith_checks hA henv h.1 he).bind fun v hv => ?_
    refine (evalEachWith_checks hA henv h.2 hes).bind fun vs hvs => ?_
    exact (Safe.pure (List.forall_mem_cons.2 ⟨hv, hvs⟩)).checks

theorem evalEntriesWith_checks (hA : Applier.Checks A B) (henv : env.Valid) :
    ∀ {es : List (String × Expr)}, ValidEntries es →
      (∀ e ∈ es.map Prod.snd, e.isDefinition = false) →
      Checks Value.ValidEntries (evalEntriesWith A env es) (evalEntriesWith B env es)
  | [], _, _ => (Safe.pure trivial).checks
  | (k, e) :: es, h, hd => by
    obtain ⟨he, hes⟩ := List.forall_mem_cons.1 hd
    refine (evalWith_checks hA henv h.1 he).bind fun v hv => ?_
    refine Safe.newIdentity.checks.bind fun _ _ => ?_
    refine (evalEntriesWith_checks hA henv h.2 hes).bind fun vs hvs => ?_
    exact (Safe.pure ⟨hv, hvs⟩).checks

end

/-- **Sequences are safe**, with definitions among their elements. -/
theorem evalSeqWith_checks (hA : Applier.Checks A B) (henv : env.Valid) {es : List Expr}
    (h : ValidAll es) : Checks Value.Valid (evalSeqWith A env es) (evalSeqWith B env es) := by
  fun_induction evalSeqWith B env es with
  | case1 => exact (Safe.raise (by simp [Condition.kind, Condition.runKinds])).checks
  | case2 env x e =>
    simp only [evalSeqWith]
    refine (evalWith_checks hA henv h.1.2 h.1.1.2).bind fun v hv => ?_
    exact (Safe.raise (by simp [Condition.kind, Condition.runKinds])).checks
  | case3 env e he =>
    have hd : e.isDefinition = false := by
      cases e with
      | define x d => exact absurd rfl (he x d)
      | _ => rfl
    simp only [evalSeqWith]
    exact evalWith_checks hA henv h.1 hd
  | case4 env x e es hes ih =>
    simp only [evalSeqWith]
    refine (evalWith_checks hA henv h.1.2 h.1.1.2).bind fun v hv => ?_
    exact ih v ⟨hv, henv⟩ h.2
  | case5 env e es hes _ he ih =>
    have hd : e.isDefinition = false := by
      cases e with
      | define x d => exact absurd rfl (he x d)
      | _ => rfl
    simp only [evalSeqWith]
    exact (evalWith_checks hA henv h.1 hd).bind fun v _ => ih henv h.2

end Expr

/-! ## Calls -/

/-- The literals of valid arguments are valid and no definitions. -/
theorem Value.literals?_safe {args : List Value} (h : ∀ v ∈ args, v.Valid) :
    Safe (fun es => Expr.ValidAll es ∧ ∀ e ∈ es, e.isDefinition = false)
      (Eval.ofCondition (literals? args)) := by
  induction args with
  | nil => exact Safe.pure ⟨trivial, fun _ he => nomatch he⟩
  | cons v vs ih =>
    obtain ⟨hv, hvs⟩ := List.forall_mem_cons.1 h
    have hrest := ih hvs
    rw [literals?]
    rcases hv.literal? with ⟨e, he, hvalid, hd⟩ | he
    · cases hes : literals? vs with
      | error c =>
        rw [hes] at hrest
        obtain ⟨_, hc, -⟩ | ⟨_, hc, hexp⟩ := hrest default _ _ rfl
        · cases hc
        · cases hc
          simp only [he]
          exact Safe.fail hexp
      | ok es =>
        rw [hes] at hrest
        obtain ⟨_, hc, hall⟩ | ⟨_, hc, -⟩ := hrest default _ _ rfl
        · cases hc
          simp only [he]
          exact Safe.pure ⟨⟨hvalid, hall.1⟩, List.forall_mem_cons.2 ⟨hd, hall.2⟩⟩
        · cases hc
    · simp only [he]
      exact Safe.raise (by simp [Condition.kind, Condition.runKinds])

/-- The checks in a body that is renamed all pass. -/
theorem Eval.renameBody_checks {body : List Expr} (h : Expr.ValidAll body) :
    Checks Expr.ValidAll (renameBodyChecked body) (renameBody body) := by
  constructor
  · funext s
    rcases renameBody_cases body s with hs | hs <;>
      simp only [renameBodyChecked, h.renameAllChecked, hs]
    rfl
  · intro s r t hr
    rcases renameBody_cases body s with hs | hs <;> rw [hs] at hr <;> cases hr
    · exact .inl ⟨_, rfl, h.renameAll _⟩
    · exact .inr ⟨_, rfl, trivial⟩

/-- What is no procedure gives no value when it is applied, and says so safely. -/
theorem Value.notAProcedure_safe {P : Value → Prop} (v : Value) :
    Safe P (Eval.ofAbort v.render >>= fun shown => Eval.raise (.notAProcedure shown)) :=
  (Safe.ofAbort_guardText _ _).bind fun _ _ =>
    Safe.raise (by simp [Condition.kind, Condition.runKinds])

/-- What is no closure is applied safely at every depth. -/
theorem Value.Valid.applyAt_safe {proc : Value} {args : List Value} (hproc : proc.Valid)
    (hargs : ∀ v ∈ args, v.Valid) (hc : ∀ id ps b, proc ≠ .closure id ps b) (depth : Nat) :
    Safe Value.Valid (proc.applyAt depth args) := by
  cases proc with
  | closure id ps b => exact absurd rfl (hc id ps b)
  | prim p =>
    rw [Value.applyAt]
    exact p.apply_safe hargs
  | dict id es =>
    unfold Value.applyAt
    split
    · exact Primitive.lookupKey_safe Value.passedOn_valid hproc _
    · exact Safe.raise (by simp [Condition.kind, Condition.runKinds])
  | number | boolean | string | symbol | empty | pair =>
    rw [Value.applyAt]
    · exact notAProcedure_safe _
    all_goals simp
  | nothing | code | sequence => exact hproc.elim

/-- **Applying valid values is safe**, and no check fails on the way. -/
theorem Value.applyChecked_checks (depth : Nat) :
    Applier.Checks (applyChecked depth) (applyAt depth) := by
  induction depth with
  | zero =>
    intro proc args hproc hargs
    cases proc
    case closure => exact ⟨rfl, fun _ _ _ h => nomatch h⟩
    all_goals exact (hproc.applyAt_safe hargs (by simp) 0).checks
  | succ depth ih =>
    intro proc args hproc hargs
    cases proc
    case closure id ps b =>
      rw [applyChecked, applyAt]
      split
      · refine (Eval.renameBody_checks hproc.2).bind fun renamed hrenamed => ?_
        rw [literalsChecked_eq hargs]
        refine (literals?_safe hargs).checks.bind fun literals hliterals => ?_
        -- parameters are replaced by valid literals in a valid body
        have hσ : (Substitution.ofLists ps literals).Valid := .ofLists ps hliterals.1 hliterals.2
        rw [hrenamed.substSeqChecked hσ]
        exact Expr.evalSeqWith_checks ih Environment.valid_empty (hrenamed.substSeq hσ)
      · exact (Safe.raise (by simp [Condition.kind, Condition.runKinds])).checks
    all_goals exact (hproc.applyAt_safe hargs (by simp) _).checks

/-! ## Programs -/

/-- Running a sound program with all checks changes nothing, and is safe. -/
theorem runProgram_checks {p : List Expr} (hp : Expr.EveryAll Expr.NodeSound p) (depth : Nat) :
    runProgramChecked depth p = runProgram depth p ∧
      ∀ e s, runProgram depth p = some (.error e, s) → e.Expected := by
  have hplaced : Expr.EveryAll Expr.NodeSound (Expr.placeAll 0 p).1 :=
    Expr.EveryAll.place (fun e n h => ⟨Expr.NodeWellFormed.place e n h.1,
      Expr.NodeReadable.place e n h.2⟩) 0 hp
  obtain ⟨names, hnames, -⟩ := exists_ready hplaced
  have hchecks := Expr.evalSeqWith_checks (Value.applyChecked_checks depth) Environment.valid_empty
    hplaced.validAll
  constructor
  · simp only [runProgramChecked, runProgram, Eval.reserving, hnames]
    exact congrFun hchecks.same _
  · intro e s hrun
    simp only [runProgram, Eval.reserving, hnames] at hrun
    rcases hchecks.safe _ _ _ hrun with ⟨a, ha, -⟩ | ⟨e', he', hexp⟩
    · cases ha
    · cases he'
      exact hexp

/-- **Programs that were read cannot go wrong in their structure.**  Desugaring such a program makes
nodes that pass their checks.  To run it, or what it desugars to, with every node checked that the
run makes is the same as to run it without, and an error at the end is an expected one. -/
theorem parseProgram_runs_safely {text : String} {p : List Expr} (h : parseProgram text = .ok p)
    (strategy : Strategy) :
    Expr.desugarAllChecked strategy p = .ok (Expr.desugarAll strategy p) ∧
      ∀ q ∈ [p, Expr.desugarAll strategy p], ∀ depth,
        runProgramChecked depth q = runProgram depth q ∧
          ∀ e s, runProgram depth q = some (.error e, s) → e.Expected := by
  have hp := parseProgram_sound h
  have hd : Expr.EveryAll Expr.NodeSound (Expr.desugarAll strategy p) :=
    Expr.EveryAll.desugar strategy hp
  refine ⟨hd.validAll.desugarAllChecked, ?_⟩
  intro q hq depth
  rcases List.mem_cons.1 hq with rfl | hq
  · exact runProgram_checks hp depth
  · obtain rfl := List.mem_singleton.1 hq
    exact runProgram_checks hd depth

/-- A dictionary is passed to a closure that was itself an argument. -/
theorem parseProgram_runs_safely_passed :
    let p := [.app (.lambda ["f"] [.app (.var "f") [.dict [("a", .quote (.symbol "b"))]]])
      [.lambda ["x"] [.var "x"]]]
    let q := Expr.desugarAll .lookup p
    parseProgram "((lambda (f) (f (dict (a 'b)))) (lambda (x) x))" = .ok p ∧
      Expr.desugarAllChecked .lookup p = .ok q ∧
      runProgramChecked 2 q = runProgram 2 q ∧
      (runProgram 2 q).map Prod.fst = some (.error (.condition .dictionaryLiteral)) ∧
      (Error.condition .dictionaryLiteral).Expected := by
  intro p q
  have h : parseProgram "((lambda (f) (f (dict (a 'b)))) (lambda (x) x))" = .ok p := rfl
  obtain ⟨hd, hruns⟩ := parseProgram_runs_safely h .lookup
  obtain ⟨hsame, hexp⟩ := hruns q (by simp [q]) 2
  have hrun : ∃ s, runProgram 2 q = some (.error (.condition .dictionaryLiteral), s) := ⟨_, rfl⟩
  obtain ⟨s, hs⟩ := hrun
  exact ⟨h, hd, hsame, by rw [hs]; rfl, hexp _ s hs⟩

end Lambdict
