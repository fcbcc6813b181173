import Lambdict.Proofs.Search

/-!
# Dictionaries as chains

A dictionary lists its entries.  Underneath, the entries are a chain of pairs, one pair for each
entry with the symbol of the key in front, and nothing but the way it came about says that the chain
is one of this form: a key is looked for by reading the head of whatever element stands there, be it
a pair or not.

Here a program is run on such chains (`runOnChains`).  It keeps the chain of each dictionary beside
its store, under the identity of the dictionary, and every operation of a dictionary goes by the
chain that is kept there, and never by the entries.  A chain can be any value, so the run may come
to read a head that is not there.  It then stops (`Stop.blind`).
-/

namespace Lambdict

/-! ## Chains of entries -/

namespace Value

/-- **A chain of entries**: it ends in the empty list, and its elements are pairs with a symbol in
front. -/
structure IsChain (c : Value) : Prop where
  lastTail : c.lastTail = .empty
  heads : ∀ h ∈ c.heads, ∃ i k v, h = .pair i (.symbol k) v

/-- The entries that a chain shows. -/
def shownEntries (c : Value) : List (String × Value) :=
  c.heads.filterMap entry?

theorem Spells.isChain {c : Value} {es : List (String × Value)} (h : c.Spells es) : c.IsChain := by
  induction h with
  | nil => exact ⟨rfl, nofun⟩
  | cons _ ih => exact ⟨ih.lastTail, List.forall_mem_cons.2 ⟨⟨_, _, _, rfl⟩, ih.heads⟩⟩

theorem Spells.shownEntries {c : Value} {es : List (String × Value)} (h : c.Spells es) :
    c.shownEntries = es := by
  induction h with
  | nil => rfl
  | cons _ ih => exact congrArg (_ :: ·) ih

/-- A chain of entries spells out the entries that it shows. -/
theorem IsChain.spells : ∀ {c : Value}, c.IsChain → c.Spells c.shownEntries
  | .empty, _ => .nil
  | .pair i h t, hc => by
    have hheads : ∀ x ∈ h :: t.heads, ∃ j k v, x = .pair j (.symbol k) v := hc.heads
    obtain ⟨⟨j, k, v, rfl⟩, hrest⟩ := List.forall_mem_cons.1 hheads
    exact .cons (IsChain.spells ⟨hc.lastTail, hrest⟩)
  | .nothing, hc | .number _, hc | .boolean _, hc | .string _, hc | .symbol _, hc | .prim _, hc
  | .closure _ _ _, hc | .dict _ _, hc | .code _ _, hc | .sequence _ _, hc => nomatch hc.lastTail

/-- The pairs of entries make a chain that spells them out. -/
theorem spells_chain (i : Identity) {args : List Value} {es : List (String × Value)}
    (h : List.Forall₂ IsPairOf args es) : (chain i args .empty).Spells es := by
  induction h with
  | nil => exact .nil
  | cons ha _ ih =>
    obtain ⟨j, rfl⟩ := ha
    exact .cons ih

/-- The pairs of some entries. -/
def pairsOf (entries : List (String × Value)) : List Value :=
  entries.map fun p => .pair (.given 0) (.symbol p.1) p.2

theorem forall₂_pairsOf (entries : List (String × Value)) :
    List.Forall₂ IsPairOf (pairsOf entries) entries := by
  rw [pairsOf, List.forall₂_map_left_iff]
  exact List.forall₂_same.2 fun _ _ => ⟨_, rfl⟩

end Value

/-! ## Evaluation beside chains -/

/-- Chains under the identities of the dictionaries whose chains they are. -/
abbrev Chains := List (Identity × Value)

/-- What an evaluation on chains reads and changes. -/
structure ChainStore where
  store : Store
  chains : Chains

/-- Why an evaluation on chains gives no value. -/
inductive Stop
  | error (e : Error)
  /-- It does not end within the depth of calls it was given. -/
  | exhausted
  /-- It reads a part of a thing that has no such part. -/
  | blind

/-- An evaluation on chains.  The chains that it has made are there however it ends. -/
def ChainEval (α : Type) : Type :=
  ChainStore → Except Stop α × ChainStore

namespace ChainEval

variable {α β : Type}

/-- The evaluation that ends with a value at once. -/
protected def pure (a : α) : ChainEval α :=
  fun s => (.ok a, s)

/-- One evaluation after another. -/
protected def bind (x : ChainEval α) (f : α → ChainEval β) : ChainEval β := fun s =>
  match x s with
  | (.error e, s') => (.error e, s')
  | (.ok a, s') => f a s'

instance : Monad ChainEval where
  pure := ChainEval.pure
  bind := ChainEval.bind

theorem bind_apply (x : ChainEval α) (f : α → ChainEval β) (s : ChainStore) :
    (x >>= f) s =
      match x s with
      | (.error e, s') => (.error e, s')
      | (.ok a, s') => f a s' := rfl

/-- An evaluation that has nothing to do with chains. -/
def lift (x : Eval α) : ChainEval α := fun s =>
  match x s.store with
  | none => (.error .exhausted, s)
  | some (r, t) => (r.mapError .error, { s with store := t })

/-- The evaluation that reads what is not there. -/
def blind : ChainEval α :=
  fun s => (.error .blind, s)

/-- The chain of a dictionary. -/
def chainOf (id : Identity) : ChainEval Value := fun s =>
  match s.chains.lookup id with
  | some c => (.ok c, s)
  | none => blind s

/-- A new dictionary with a chain. -/
def keepDict (c : Value) : ChainEval Value := fun s =>
  let id := .made s.store.made
  (.ok (.dict id c.shownEntries), ⟨s.store.next, (id, c) :: s.chains⟩)

/-- Goes through a chain for a key.  The head of each element is read whatever the element is. -/
def scan (key : String) : Value → ChainEval Value
  | .pair _ (.pair _ (.symbol k) v) t => if k = key then pure v else scan key t
  | .pair _ (.pair _ _ _) t => scan key t
  | .pair _ _ _ => blind
  | _ => lift (Eval.raise (.keyNotFound key))

/-- A new dictionary of pairs, each of which has to be an entry. -/
def makeDict (args : List Value) : ChainEval Value :=
  match args.mapM Value.entry? with
  | some _ => keepDict (.chain (.given 0) args .empty)
  | none => lift (Primitive.mismatch .dict args .entries)

end ChainEval

open ChainEval (lift chainOf keepDict scan makeDict)

/-- Applies a primitive on chains. -/
def Primitive.applyOnChains (op : Primitive) (args : List Value) : ChainEval Value :=
  match op, args with
  | .dict, args => makeDict args
  | .get, [.dict id _, .symbol key] => do
    let c ← chainOf id
    scan key c
  | .bind, [.dict id _, .symbol key, v] => do
    let c ← chainOf id
    keepDict (.pair (.given 0) (.pair (.given 0) (.symbol key) v) c)
  | op, args => lift (op.apply args)

/-- A way to apply a value to arguments, on chains. -/
abbrev ChainApplier := Value → List Value → ChainEval Value

namespace Expr

mutual

/-- **The value of an expression, on chains**, given how values are applied. -/
def evalOnChains (apply : ChainApplier) (env : Environment) : Expr → ChainEval Value
  | .number n => pure (.number n)
  | .boolean b => pure (.boolean b)
  | .string s => pure (.string s)
  | .prim p => pure (.prim p)
  | .quote d => pure d
  | .var x => lift (Eval.ofCondition (env.lookup x))
  | .cond t c a => do
    let v ← t.evalOnChains apply env
    if v.isFalse then a.evalOnChains apply env else c.evalOnChains apply env
  | .lambda ps b => do
    let id ← lift Eval.newIdentity
    return .closure id ps b
  | .app f es => do
    let proc ← f.evalOnChains apply env
    let args ← evalEachOnChains apply env es
    apply proc args
  | .dict es => do
    let entries ← evalEntriesOnChains apply env es
    makeDict (Value.pairsOf entries)
  | .define x _ => lift (Eval.raise (.malformed (.misplacedDefine x)))
  | .foreign v => lift (Eval.raise (.malformed (.unknownExpression v.inspect)))

/-- The values of several expressions, from left to right. -/
def evalEachOnChains (apply : ChainApplier) (env : Environment) :
    List Expr → ChainEval (List Value)
  | [] => pure []
  | e :: es => do
    let v ← e.evalOnChains apply env
    let vs ← evalEachOnChains apply env es
    return v :: vs

/-- The entries of a dictionary literal, from left to right. -/
def evalEntriesOnChains (apply : ChainApplier) (env : Environment) :
    List (String × Expr) → ChainEval (List (String × Value))
  | [] => pure []
  | (k, e) :: es => do
    let v ← e.evalOnChains apply env
    let _ ← lift Eval.newIdentity
    let entries ← evalEntriesOnChains apply env es
    return (k, v) :: entries

end

/-- The value of a sequence, on chains. -/
def evalSeqOnChains (apply : ChainApplier) (env : Environment) : List Expr → ChainEval Value
  | [] => lift (Eval.raise .emptySequence)
  | [.define x e] => do
    let _ ← e.evalOnChains apply env
    lift (Eval.raise (.sequenceEndsInDefinition x))
  | [e] => e.evalOnChains apply env
  | .define x e :: es => do
    let v ← e.evalOnChains apply env
    evalSeqOnChains apply (env.extend x v) es
  | e :: es => do
    let _ ← e.evalOnChains apply env
    evalSeqOnChains apply env es

end Expr

/-- **Applies a value on chains**, with closure calls nested at most `depth` deep. -/
def Value.applyOnChains (depth : Nat) (proc : Value) (args : List Value) : ChainEval Value :=
  match proc with
  | .prim p => p.applyOnChains args
  | .closure _ params body =>
    match depth with
    | 0 => lift Eval.exhausted
    | depth + 1 =>
      if args.length = params.length then do
        let renamed ← lift (Eval.renameBody body)
        let literals ← lift (Eval.ofCondition (literals? args))
        Expr.evalSeqOnChains (applyOnChains depth) .empty
          (Expr.substSeq (.ofLists params literals) renamed)
      else lift (Eval.raise (.closureArity params args.length))
  | .dict id es =>
    match args with
    | [.symbol key] => do
      let c ← chainOf id
      scan key c
    | args => lift ((Value.dict id es).applyAt depth args)
  | proc => lift (proc.applyAt depth args)

/-- **Runs a program on chains**, from the empty environment and with no chains. -/
def runOnChains (depth : Nat) (program : List Expr) : Except Stop Value × ChainStore :=
  let placed := (Expr.placeAll 0 program).1
  match collectNames placed with
  | .error fault => (.error (.error (.condition (.malformed fault))), ⟨.start (.start ∅), []⟩)
  | .ok names =>
    Expr.evalSeqOnChains (Value.applyOnChains depth) .empty placed ⟨.start (.start names), []⟩

end Lambdict
