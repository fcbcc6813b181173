import Lambdict.Proofs.WellFormed
import Mathlib.Data.List.Nodup

/-!
# Expressions without the names of parameters

The names of lambda parameters do not matter, so an expression can be written without them: a
reference to a parameter is the number of parameters between the two, counted from the reference
outwards, and a lambda is left with the number of its parameters.  This is the *nameless* form of an
expression (`Expr.nameless`).  All other names stay, since nothing but a lambda binds.  In
particular a definition is no binder.  It ends the scope of a parameter of its name for the rest of
its sequence, and the references after it are plain names.

In this form parameters are replaced without regard to names (`Nameless.instantiate`).  There is
nothing that could be captured: what is put in has its parameters bound within itself, and all its
other names stay names wherever it is put.
-/

namespace Lambdict

/-- Nameless expressions. -/
inductive Nameless
  | number (n : Number)
  | boolean (b : Bool)
  | string (s : String)
  | prim (p : Primitive)
  | quote (datum : Value)
  | foreign (v : Value)
  /-- A name that no lambda binds. -/
  | free (name : String)
  /-- The parameter with so many others between. -/
  | bound (index : Nat)
  | cond (test consequent alternate : Nameless)
  | lambda (arity : Nat) (body : List Nameless)
  | app (operator : Nameless) (operands : List Nameless)
  | define (name : String) (value : Nameless)
  | dict (keys : List String) (values : List Nameless)

/-! ## Parameters around a place -/

/-- The parameters around a place, the nearest first.  One whose scope a definition has ended is
still counted, but has no name. -/
abbrev Context := List (Option String)

namespace Context

/-- The context in the body of a lambda. -/
def bind (ps : List String) (Γ : Context) : Context := ps.map some ++ Γ

/-- The context after a definition of a name. -/
def hide (x : String) (Γ : Context) : Context := Γ.map fun y => if y = some x then none else y

/-- The context after an element of a sequence. -/
def after (Γ : Context) : Expr → Context
  | .define x _ => Γ.hide x
  | _ => Γ

/-- How many parameters are between a place and the nearest one of a name. -/
def index? (Γ : Context) (x : String) : Option Nat := Γ.idxOf? (some x)

variable {Γ Δ : Context} {ps : List String} {x y : String}

/-- An index into two contexts, one inside the other. -/
theorem index?_append (Γ Δ : Context) (x : String) :
    index? (Γ ++ Δ) x = (Γ.index? x).or ((Δ.index? x).map (· + Γ.length)) :=
  List.findIdx?_append

theorem index?_map_some (ps : List String) (x : String) : index? (ps.map some) x = ps.idxOf? x := by
  rw [index?, List.idxOf?, List.findIdx?_map]
  rfl

/-- Inside a lambda a name is its parameter, or else has its index moved by all of them. -/
theorem index?_bind (ps : List String) (Γ : Context) (x : String) :
    (Γ.bind ps).index? x = (ps.idxOf? x).or ((Γ.index? x).map (· + ps.length)) := by
  rw [bind, index?_append, index?_map_some, List.length_map]

/-- A parameter has an index below their number. -/
theorem index?_bind_of_mem (h : x ∈ ps) (Γ : Context) :
    ∃ i, i < ps.length ∧ (Γ.bind ps).index? x = some i := by
  obtain ⟨i, hi⟩ := Option.isSome_iff_exists.1 (List.isSome_idxOf?.2 h)
  obtain ⟨hlt, -⟩ := List.idxOf?_eq_some_iff.1 hi
  exact ⟨i, hlt, by rw [index?_bind, hi, Option.some_or]⟩

/-- The index of a name that a lambda does not bind moves by the number of its parameters. -/
theorem index?_bind_of_not_mem (h : x ∉ ps) (Γ : Context) :
    (Γ.bind ps).index? x = (Γ.index? x).map (· + ps.length) := by
  rw [index?_bind, List.idxOf?_eq_none_iff.2 h, Option.none_or]

/-- Where parameters differ from each other, each is found at its own place. -/
theorem index?_bind_getElem {i : Nat} (hps : ps.Nodup) (h : ps[i]? = some x) (Γ : Context) :
    (Γ.bind ps).index? x = some i := by
  obtain ⟨hi, rfl⟩ := List.getElem?_eq_some_iff.1 h
  have hidx : ps.idxOf? ps[i] = some i :=
    List.idxOf?_eq_some_iff.2 ⟨hi, rfl, fun j hj heq =>
      absurd ((List.Nodup.getElem_inj_iff hps).1 heq) (by omega)⟩
  rw [index?_bind, hidx, Option.some_or]

theorem index?_lt {i : Nat} (h : Γ.index? x = some i) : i < Γ.length :=
  (List.idxOf?_eq_some_iff.1 h).1

/-- A name that is not in a context has no index. -/
theorem index?_eq_none (h : some x ∉ Γ) : Γ.index? x = none :=
  List.idxOf?_eq_none_iff.2 h

/-- The names of a context where one is hidden are the others. -/
theorem mem_hide : some x ∈ Γ.hide y ↔ some x ∈ Γ ∧ x ≠ y := by
  rw [hide, List.mem_map]
  constructor
  · rintro ⟨z, hz, heq⟩
    split at heq
    · cases heq
    next hne =>
      obtain rfl := heq
      exact ⟨hz, fun h => hne (congrArg some h)⟩
  · rintro ⟨hx, hne⟩
    exact ⟨some x, hx, if_neg fun h => hne (Option.some.inj h)⟩

theorem index?_hide_self (Γ : Context) (x : String) : (Γ.hide x).index? x = none :=
  index?_eq_none fun h => (mem_hide.1 h).2 rfl

/-- To hide a name changes the index of no other. -/
theorem index?_hide_of_ne (h : x ≠ y) (Γ : Context) : (Γ.hide y).index? x = Γ.index? x := by
  rw [index?, index?, hide, List.idxOf?, List.findIdx?_map]
  congr 1
  funext z
  rw [Function.comp_apply]
  split
  next hz =>
    subst hz
    simp [h.symm]
  next => rfl

theorem hide_append (Γ Δ : Context) (x : String) : hide x (Γ ++ Δ) = Γ.hide x ++ Δ.hide x :=
  List.map_append

end Context

/-! ## The nameless form -/

/-- A reference: to the parameter of an index, or to a name. -/
def Nameless.reference (x : String) : Option Nat → Nameless
  | some i => .bound i
  | none => .free x

namespace Expr

mutual

/-- **The nameless form of an expression**, with the parameters around it. -/
def nameless (Γ : Context) : Expr → Nameless
  | .number n => .number n
  | .boolean b => .boolean b
  | .string s => .string s
  | .prim p => .prim p
  | .quote d => .quote d
  | .foreign v => .foreign v
  | .var x => .reference x (Γ.index? x)
  | .cond t c a => .cond (t.nameless Γ) (c.nameless Γ) (a.nameless Γ)
  | .lambda ps b => .lambda ps.length (namelessSeq (Γ.bind ps) b)
  | .app f es => .app (f.nameless Γ) (namelessEach Γ es)
  | .define x e => .define x (e.nameless Γ)
  | .dict es => .dict (es.map Prod.fst) (namelessEntries Γ es)

/-- The nameless form of a sequence. -/
def namelessSeq (Γ : Context) : List Expr → List Nameless
  | [] => []
  | e :: es => e.nameless Γ :: namelessSeq (Γ.after e) es

/-- The nameless forms of several expressions. -/
def namelessEach (Γ : Context) : List Expr → List Nameless
  | [] => []
  | e :: es => e.nameless Γ :: namelessEach Γ es

/-- The nameless forms of the values of a dictionary literal. -/
def namelessEntries (Γ : Context) : List (String × Expr) → List Nameless
  | [] => []
  | (_, e) :: es => e.nameless Γ :: namelessEntries Γ es

end

end Expr

/-! ## Instantiation -/

namespace Nameless

mutual

/-- **Puts expressions in** for the parameters of a lambda, where so many other parameters have been
passed on the way into its body.  What is put in refers to no parameter around it. -/
def instantiate (args : List Nameless) (k : Nat) : Nameless → Nameless
  | .bound i => if i < k then .bound i else args[i - k]?.getD (.bound (i - args.length))
  | .cond t c a => .cond (t.instantiate args k) (c.instantiate args k) (a.instantiate args k)
  | .lambda n b => .lambda n (instantiateAll args (k + n) b)
  | .app f es => .app (f.instantiate args k) (instantiateAll args k es)
  | .define x e => .define x (e.instantiate args k)
  | .dict ks vs => .dict ks (instantiateAll args k vs)
  | .number n => .number n
  | .boolean b => .boolean b
  | .string s => .string s
  | .prim p => .prim p
  | .quote d => .quote d
  | .foreign v => .foreign v
  | .free x => .free x

/-- Puts expressions in for parameters in each of several expressions. -/
def instantiateAll (args : List Nameless) (k : Nat) : List Nameless → List Nameless
  | [] => []
  | e :: es => e.instantiate args k :: instantiateAll args k es

end

mutual

/-- Without anything to put in, nothing changes. -/
theorem instantiate_nil : ∀ (k : Nat) (e : Nameless), e.instantiate [] k = e
  | k, .bound i => by simp [instantiate]
  | k, .cond t c a => by
    rw [instantiate, instantiate_nil k t, instantiate_nil k c, instantiate_nil k a]
  | k, .lambda n b => by rw [instantiate, instantiateAll_nil (k + n) b]
  | k, .app f es => by rw [instantiate, instantiate_nil k f, instantiateAll_nil k es]
  | k, .define x e => by rw [instantiate, instantiate_nil k e]
  | k, .dict ks vs => by rw [instantiate, instantiateAll_nil k vs]
  | _, .number _ | _, .boolean _ | _, .string _ | _, .prim _ | _, .quote _ | _, .foreign _
  | _, .free _ => rfl

/-- Nothing is put in where there are no arguments. -/
theorem instantiateAll_nil : ∀ (k : Nat) (es : List Nameless), instantiateAll [] k es = es
  | _, [] => rfl
  | k, e :: es => by rw [instantiateAll, instantiate_nil k e, instantiateAll_nil k es]

end

end Nameless

/-! ## Parameters that are not referred to -/

namespace Expr

mutual

/-- The parameters around an expression do not matter if it has none of their names. -/
theorem nameless_append (Γ Δ : Context) : ∀ {e : Expr}, e.NamesWithin (fun x => some x ∉ Δ) →
    e.nameless (Γ ++ Δ) = e.nameless Γ
  | .var x, h => by
    have hx : Context.index? Δ x = none := Context.index?_eq_none h
    rw [nameless, nameless, Context.index?_append, hx, Option.map_none, Option.or_none]
  | .cond t c a, h => by
    rw [nameless, nameless, nameless_append Γ Δ h.2.1, nameless_append Γ Δ h.2.2.1,
      nameless_append Γ Δ h.2.2.2]
  | .lambda ps b, h => by
    have hbind : Context.bind ps (Γ ++ Δ) = Context.bind ps Γ ++ Δ := (List.append_assoc ..).symm
    rw [nameless, nameless, hbind, namelessSeq_append _ Δ h.2]
  | .app f es, h => by
    rw [nameless, nameless, nameless_append Γ Δ h.2.1, namelessEach_append Γ Δ h.2.2]
  | .define x e, h => by rw [nameless, nameless, nameless_append Γ Δ h.2]
  | .dict es, h => by rw [nameless, nameless, namelessEntries_append Γ Δ h.2]
  | .number _, _ | .boolean _, _ | .string _, _ | .prim _, _ | .quote _, _ | .foreign _, _ => rfl

/-- A context further outside does not matter to a sequence without its names. -/
theorem namelessSeq_append (Γ Δ : Context) : ∀ {es : List Expr},
    EveryAll (NodeNames fun x => some x ∉ Δ) es → namelessSeq (Γ ++ Δ) es = namelessSeq Γ es
  | [], _ => rfl
  | e :: es, h => by
    have hafter : ∃ Δ' : Context, Context.after (Γ ++ Δ) e = Γ.after e ++ Δ' ∧
        ∀ x, some x ∈ Δ' → some x ∈ Δ := by
      cases e with
      | define z d =>
        exact ⟨Δ.hide z, Context.hide_append Γ Δ z, fun _ hx => (Context.mem_hide.1 hx).1⟩
      | _ => exact ⟨Δ, rfl, fun _ hx => hx⟩
    obtain ⟨Δ', heq, hsub⟩ := hafter
    have hrest := EveryAll.imp (NodeNames.imp fun x hx hm => hx (hsub x hm)) h.2
    rw [namelessSeq, namelessSeq, nameless_append Γ Δ h.1, heq, namelessSeq_append _ Δ' hrest]

theorem namelessEach_append (Γ Δ : Context) : ∀ {es : List Expr},
    EveryAll (NodeNames fun x => some x ∉ Δ) es → namelessEach (Γ ++ Δ) es = namelessEach Γ es
  | [], _ => rfl
  | _ :: _, h => by
    rw [namelessEach, namelessEach, nameless_append Γ Δ h.1, namelessEach_append Γ Δ h.2]

theorem namelessEntries_append (Γ Δ : Context) : ∀ {es : List (String × Expr)},
    EveryEntry (NodeNames fun x => some x ∉ Δ) es →
      namelessEntries (Γ ++ Δ) es = namelessEntries Γ es
  | [], _ => rfl
  | (_, _) :: _, h => by
    rw [namelessEntries, namelessEntries, nameless_append Γ Δ h.1, namelessEntries_append Γ Δ h.2]

end

end Expr

end Lambdict
