import Lambdict.Proofs.Parsed

/-!
# The syntax of expressions

Which S-expression is which expression, as a system of rules (`Parses`), one for each way to write
an expression.  The parser follows the rules (`toExpr_eq_ok_iff`): it gives an expression exactly
when the rules do, and then the same one.  What holds of all parsed expressions is therefore an
induction over rules.
-/

namespace Lambdict

open SExpr (exists_of_bind_eq_ok)

mutual

/-- **The expression that an S-expression denotes**; `top` says whether it may be a definition. -/
inductive Parses : Bool → SExpr → Expr → Prop
  | number {top : Bool} (n : Number) : Parses top (.number n) (.number n)
  | boolean {top : Bool} (b : Bool) : Parses top (.boolean b) (.boolean b)
  | string {top : Bool} (s : String) : Parses top (.string s) (.string s)
  | prim {top : Bool} {x : String} {p : Primitive} (h : Primitive.ofName? x = some p) :
      Parses top (.symbol x) (.prim p)
  | var {top : Bool} {x : String} (h : Primitive.ofName? x = none) : Parses top (.symbol x) (.var x)
  | define {x : String} {y : SExpr} {e : Expr} (hx : Primitive.ofName? x = none)
      (h : Parses false y e) :
      Parses true (.list [.symbol "define", .symbol x, y]) (.define x e)
  | quote {top : Bool} (d : SExpr) : Parses top (.list [.symbol "quote", d]) (.quote d.toDatum)
  | ifElse {top : Bool} {t c a : SExpr} {t' c' a' : Expr} (ht : Parses false t t')
      (hc : Parses false c c') (ha : Parses false a a') :
      Parses top (.list [.symbol "if", t, c, a]) (.cond t' c' a')
  | lambda {top : Bool} {ps : List String} {body : List SExpr} {es : List Expr}
      (hp : ∀ p ∈ ps, Primitive.ofName? p = none) (hps : "" ∉ ps ∧ ps.Nodup) (hbody : body ≠ [])
      (h : ParsesAll true body es) :
      Parses top (.list (.symbol "lambda" :: .list (ps.map .symbol) :: body)) (.lambda ps es)
  | letIn {top : Bool} {bindings : List SExpr} {ps : List String} {vs : List Expr}
      {body : List SExpr} {es : List Expr} (hb : ParsesBindings bindings ps vs)
      (hps : "" ∉ ps ∧ ps.Nodup) (hbody : body ≠ []) (h : ParsesAll true body es) :
      Parses top (.list (.symbol "let" :: .list bindings :: body)) (.app (.lambda ps es) vs)
  | dict {top : Bool} {args : List SExpr} {entries : List (String × Expr)}
      (h : ParsesEntries args entries) (hnodup : (entries.map Prod.fst).Nodup) :
      Parses top (.list (.symbol "dict" :: args)) (.dict entries)
  /-- A call of the primitive `dict`: no argument has the shape of an entry. -/
  | dictCall {top : Bool} {args : List SExpr} {es : List Expr} (hne : args ≠ [])
      (hshape : ∀ x ∈ args, x.isEntry = false) (h : ParsesAll false args es) :
      Parses top (.list (.symbol "dict" :: args)) (.app (.prim .dict) es)
  | app {top : Bool} {head : SExpr} {args : List SExpr} {f : Expr} {es : List Expr}
      (hk : head.keyword? = none) (hf : Parses false head f) (h : ParsesAll false args es) :
      Parses top (.list (head :: args)) (.app f es)

/-- The expressions that several S-expressions denote. -/
inductive ParsesAll : Bool → List SExpr → List Expr → Prop
  | nil {top : Bool} : ParsesAll top [] []
  | cons {top : Bool} {x : SExpr} {xs : List SExpr} {e : Expr} {es : List Expr}
      (h : Parses top x e) (hs : ParsesAll top xs es) : ParsesAll top (x :: xs) (e :: es)

/-- The names and the values of a binding list. -/
inductive ParsesBindings : List SExpr → List String → List Expr → Prop
  | nil : ParsesBindings [] [] []
  | cons {x : String} {y : SExpr} {e : Expr} {rest : List SExpr} {ps : List String}
      {vs : List Expr} (hx : Primitive.ofName? x = none) (h : Parses false y e)
      (hs : ParsesBindings rest ps vs) :
      ParsesBindings (.list [.symbol x, y] :: rest) (x :: ps) (e :: vs)

/-- The entries of a dictionary literal. -/
inductive ParsesEntries : List SExpr → List (String × Expr) → Prop
  | nil : ParsesEntries [] []
  | cons {k : String} {y : SExpr} {e : Expr} {rest : List SExpr} {entries : List (String × Expr)}
      (h : Parses false y e) (hs : ParsesEntries rest entries) :
      ParsesEntries (.list [.symbol k, y] :: rest) ((k, e) :: entries)

end

namespace SExpr

/-! ## The parser follows the rules -/

/-- What binds a name is a symbol that names no primitive. -/
theorem binder_eq_ok_iff {form : BindingForm} {x : SExpr} {name : String} :
    binder form x = .ok name ↔ x = .symbol name ∧ Primitive.ofName? name = none := by
  constructor
  · intro h
    cases x with
    | symbol y =>
      simp only [binder] at h
      split at h <;> cases h
      exact ⟨rfl, by assumption⟩
    | _ => cases h
  · rintro ⟨rfl, h⟩
    simp only [binder, h]

/-- What binds several names is a list of symbols that name no primitives. -/
theorem mapM_binder_eq_ok_iff {form : BindingForm} {xs : List SExpr} {ps : List String} :
    xs.mapM (binder form) = .ok ps ↔
      xs = ps.map .symbol ∧ ∀ p ∈ ps, Primitive.ofName? p = none := by
  induction xs generalizing ps with
  | nil =>
    rw [List.mapM_nil]
    constructor
    · rintro ⟨⟩
      exact ⟨rfl, by simp⟩
    · rintro ⟨h, -⟩
      rw [List.map_eq_nil_iff.1 h.symm]
      rfl
  | cons x xs ih =>
    rw [List.mapM_cons]
    constructor
    · intro h
      obtain ⟨p, hp, h⟩ := exists_of_bind_eq_ok h
      obtain ⟨qs, hqs, h⟩ := exists_of_bind_eq_ok h
      cases h
      obtain ⟨rfl, hnone⟩ := binder_eq_ok_iff.1 hp
      obtain ⟨rfl, hrest⟩ := ih.1 hqs
      exact ⟨rfl, List.forall_mem_cons.2 ⟨hnone, hrest⟩⟩
    · rintro ⟨hxs, hps⟩
      cases ps with
      | nil => cases hxs
      | cons p ps =>
        obtain ⟨rfl, rfl⟩ := List.cons.inj hxs
        obtain ⟨hp, hps⟩ := List.forall_mem_cons.1 hps
        rw [binder_eq_ok_iff.2 ⟨rfl, hp⟩, ih.2 ⟨rfl, hps⟩]
        rfl

/-- The check of parameters passes if they have texts, no two are the same, and there is a body. -/
theorem checkParameters_eq_ok_iff {ps : List String} {hasBody : Bool} :
    checkParameters ps hasBody = .ok () ↔ ("" ∉ ps ∧ ps.Nodup) ∧ hasBody = true := by
  have hany : ps.any String.isEmpty = true ↔ "" ∈ ps := by
    rw [List.any_eq_true]
    constructor
    · rintro ⟨x, hx, hempty⟩
      rwa [String.isEmpty_iff.1 hempty] at hx
    · exact fun h => ⟨"", h, rfl⟩
  unfold checkParameters
  by_cases hempty : "" ∈ ps
  · simp [hany.2 hempty, hempty]
  · have hnot : ps.any String.isEmpty = false := by
      rw [← Bool.not_eq_true]
      exact fun h => hempty (hany.1 h)
    by_cases hnodup : ps.Nodup <;> cases hasBody <;> simp [hnot, hempty, hnodup]

/-- A lambda with parsed expressions in its body passes its checks as far as its parameters do. -/
theorem lambda?_eq_ok_iff {ps : List String} {b : List Expr} {e : Expr}
    (hb : ∀ d ∈ b, d.isProper = true) :
    Expr.lambda? ps b = .ok e ↔ ("" ∉ ps ∧ ps.Nodup) ∧ b ≠ [] ∧ e = .lambda ps b := by
  have hfind : b.find? (!·.isProper) = none := by
    refine List.find?_eq_none.2 fun d hd => ?_
    simp [hb d hd]
  unfold Expr.lambda?
  rw [hfind]
  constructor
  · intro h
    obtain ⟨⟨⟩, hc, h⟩ := exists_of_bind_eq_ok h
    cases h
    obtain ⟨hps, hbody⟩ := checkParameters_eq_ok_iff.1 hc
    exact ⟨hps, by simpa using hbody, rfl⟩
  · rintro ⟨hps, hbody, rfl⟩
    rw [checkParameters_eq_ok_iff.2 ⟨hps, by simpa using hbody⟩]
    rfl

/-- The check of keys passes if none is repeated and none was seen before. -/
theorem dictLiteral_go_eq_ok_iff {entries rest : List (String × Expr)} {seen : List String}
    {e : Expr} : dictLiteral.go entries seen rest = .ok e ↔
      ((rest.map Prod.fst).Nodup ∧ ∀ k ∈ rest.map Prod.fst, k ∉ seen) ∧ e = .dict entries := by
  induction rest generalizing seen with
  | nil =>
    rw [dictLiteral.go]
    constructor
    · rintro ⟨⟩
      simp
    · rintro ⟨-, rfl⟩
      rfl
  | cons p rest ih =>
    obtain ⟨k, d⟩ := p
    rw [dictLiteral.go]
    by_cases hk : k ∈ seen
    · simp [hk]
    · have hcontains : seen.contains k = false := by simpa using hk
      simp only [hcontains, Bool.false_eq_true, if_false, ih, List.map_cons, List.nodup_cons,
        List.mem_cons, not_or, forall_eq_or_imp]
      grind

/-- A literal passes its check if no key is repeated. -/
theorem dictLiteral_eq_ok_iff {entries : List (String × Expr)} {e : Expr} :
    dictLiteral entries = .ok e ↔ (entries.map Prod.fst).Nodup ∧ e = .dict entries := by
  rw [dictLiteral, dictLiteral_go_eq_ok_iff]
  simp

end SExpr

/-! ### What the rules give, the parser gives -/

@[simp]
theorem keyword?_define : (SExpr.symbol "define").keyword? = some .define := rfl

@[simp]
theorem keyword?_if : (SExpr.symbol "if").keyword? = some .ifElse := rfl

@[simp]
theorem keyword?_lambda : (SExpr.symbol "lambda").keyword? = some .lambda := rfl

@[simp]
theorem keyword?_let : (SExpr.symbol "let").keyword? = some .letIn := rfl

@[simp]
theorem keyword?_dict : (SExpr.symbol "dict").keyword? = some .dict := rfl

/-- Each S-expression of a sequence denotes one expression. -/
theorem ParsesAll.length {top : Bool} : ∀ {xs : List SExpr} {es : List Expr},
    ParsesAll top xs es → es.length = xs.length
  | _, _, .nil => rfl
  | _, _, .cons _ hs => congrArg (· + 1) hs.length

/-- A binding list has as many values as names. -/
theorem ParsesBindings.length : ∀ {xs : List SExpr} {ps : List String} {vs : List Expr},
    ParsesBindings xs ps vs → ps.length = vs.length
  | _, _, _, .nil => rfl
  | _, _, _, .cons _ _ hs => congrArg (· + 1) hs.length

theorem ParsesEntries.length : ∀ {xs : List SExpr} {entries : List (String × Expr)},
    ParsesEntries xs entries → entries.length = xs.length
  | _, _, .nil => rfl
  | _, _, .cons _ hs => congrArg (· + 1) hs.length

/-- What is denoted is an expression. -/
theorem Parses.proper {top : Bool} {x : SExpr} {e : Expr} (h : Parses top x e) :
    e.isProper = true := by
  cases h <;> rfl

theorem ParsesAll.proper {top : Bool} : ∀ {xs : List SExpr} {es : List Expr},
    ParsesAll top xs es → ∀ e ∈ es, e.isProper = true
  | _, _, .nil => fun _ he => nomatch he
  | _, _, .cons h hs => List.forall_mem_cons.2 ⟨h.proper, hs.proper⟩

/-- Only the empty sequence denotes the empty sequence. -/
theorem ParsesAll.ne_nil {top : Bool} {xs : List SExpr} {es : List Expr} (h : ParsesAll top xs es) :
    es ≠ [] ↔ xs ≠ [] := by
  cases h <;> simp

/-- What denotes entries has the shape of entries. -/
theorem ParsesEntries.isEntry : ∀ {xs : List SExpr} {entries : List (String × Expr)},
    ParsesEntries xs entries → xs.all SExpr.isEntry = true
  | _, _, .nil => rfl
  | _, _, .cons _ hs => by
    rw [List.all_cons, hs.isEntry]
    rfl

/-- Arguments that have not the shape of entries are not taken for entries. -/
theorem all_isEntry_eq_false {xs : List SExpr} (hne : xs ≠ [])
    (h : ∀ x ∈ xs, x.isEntry = false) : xs.all SExpr.isEntry = false := by
  cases xs with
  | nil => exact absurd rfl hne
  | cons x xs => rw [List.all_cons, h x (List.mem_cons_self ..), Bool.false_and]

mutual

/-- **What the rules give, the parser gives.** -/
theorem Parses.toExpr : ∀ {top : Bool} {x : SExpr} {e : Expr}, Parses top x e →
    x.toExpr top = .ok e
  | _, _, _, .number _ | _, _, _, .boolean _ | _, _, _, .string _ => rfl
  | _, _, _, .prim h => by simp only [SExpr.toExpr, h]
  | _, _, _, .var h => by simp only [SExpr.toExpr, h]
  | _, _, _, @Parses.define x _ _ hx h => by
    have hname : SExpr.binder .define (.symbol x) = .ok x := SExpr.binder_eq_ok_iff.2 ⟨rfl, hx⟩
    simp [SExpr.toExpr, keyword?_define, hname, h.toExpr]
    rfl
  | _, _, _, .quote d => rfl
  | _, _, _, .ifElse ht hc ha => by
    simp only [SExpr.toExpr, keyword?_if, ht.toExpr, hc.toExpr, ha.toExpr]
    rfl
  | _, _, _, @Parses.lambda _ ps body _ hp hps hbody h => by
    have hnames : (ps.map .symbol).mapM (SExpr.binder .lambda) = .ok ps :=
      SExpr.mapM_binder_eq_ok_iff.2 ⟨rfl, hp⟩
    have hlambda := (SExpr.lambda?_eq_ok_iff h.proper).2 ⟨hps, h.ne_nil.2 hbody, rfl⟩
    have hempty : body.isEmpty = false := by simpa using hbody
    unfold SExpr.toExpr
    simp only [keyword?_lambda, hnames, hempty, h.toExprs]
    exact hlambda
  | _, _, _, @Parses.letIn _ _ _ _ body _ hb hps hbody h => by
    have hlambda := (SExpr.lambda?_eq_ok_iff h.proper).2 ⟨hps, h.ne_nil.2 hbody, rfl⟩
    have hempty : body.isEmpty = false := by simpa using hbody
    unfold SExpr.toExpr
    simp only [keyword?_let, hb.toBindings, hempty, h.toExprs]
    have hfst := List.map_fst_zip (Nat.le_of_eq hb.length)
    have hsnd := List.map_snd_zip (Nat.le_of_eq hb.length.symm)
    simp only [bind, Except.bind, hfst, hsnd, hlambda]
    rfl
  | _, _, _, .dict h hnodup => by
    have hliteral := SExpr.dictLiteral_eq_ok_iff.2 ⟨hnodup, rfl⟩
    unfold SExpr.toExpr
    simp only [keyword?_dict, h.isEntry, h.toEntries, if_true]
    exact hliteral
  | _, _, _, @Parses.dictCall _ args _ hne hshape h => by
    have hall := all_isEntry_eq_false hne hshape
    have hany : args.any SExpr.isEntry = false := by simpa using hshape
    unfold SExpr.toExpr
    simp only [keyword?_dict, hall, hany, h.toExprs]
    rfl
  | _, _, _, .app hk hf h => by
    unfold SExpr.toExpr
    simp only [hk, hf.toExpr, h.toExprs]
    rfl

/-- **The parser gives the expressions that a sequence denotes.** -/
theorem ParsesAll.toExprs : ∀ {top : Bool} {xs : List SExpr} {es : List Expr},
    ParsesAll top xs es → SExpr.toExprs top xs = .ok es
  | _, _, _, .nil => rfl
  | _, _, _, .cons h hs => by
    rw [SExpr.toExprs, h.toExpr, hs.toExprs]
    rfl

/-- The parser gives the names and the values that a binding list denotes. -/
theorem ParsesBindings.toBindings : ∀ {xs : List SExpr} {ps : List String} {vs : List Expr},
    ParsesBindings xs ps vs → SExpr.toBindings xs = .ok (ps.zip vs)
  | _, _, _, .nil => rfl
  | _, _, _, .cons hx h hs => by
    rw [SExpr.toBindings, SExpr.binder_eq_ok_iff.2 ⟨rfl, hx⟩, h.toExpr, hs.toBindings]
    rfl

/-- The parser gives the entries that a literal denotes. -/
theorem ParsesEntries.toEntries : ∀ {xs : List SExpr} {entries : List (String × Expr)},
    ParsesEntries xs entries → SExpr.toEntries xs = .ok entries
  | _, _, .nil => rfl
  | _, _, .cons h hs => by
    rw [SExpr.toEntries, h.toExpr, hs.toEntries]
    rfl

end

/-! ### What the parser gives, the rules give -/

/-- The name of a keyword. -/
def Keyword.text : Keyword → String
  | .quote => "quote"
  | .ifElse => "if"
  | .lambda => "lambda"
  | .dict => "dict"
  | .letIn => "let"
  | .define => "define"

/-- A keyword has one spelling. -/
theorem Keyword.text_of_ofName? {x : String} {k : Keyword} (h : Keyword.ofName? x = some k) :
    x = k.text := by
  unfold Keyword.ofName? at h
  repeat' split at h
  all_goals first | (cases h; assumption) | cases h

/-- What begins a special form is the symbol of its keyword. -/
theorem SExpr.eq_of_keyword? {x : SExpr} {k : Keyword} (h : x.keyword? = some k) :
    x = .symbol k.text := by
  cases x with
  | symbol y => exact congrArg _ (Keyword.text_of_ofName? h)
  | _ => cases h

namespace SExpr

/-- The rules give what the parser gives for all forms below a size. -/
def RulesBelow (n : Nat) : Prop :=
  ∀ x : SExpr, sizeOf x < n → ∀ top e, x.toExpr top = .ok e → Parses top x e

/-- Forms that are all below a size. -/
def Smaller (n : Nat) (xs : List SExpr) : Prop := ∀ x ∈ xs, sizeOf x < n

/-- The items of a list are smaller than the list. -/
theorem Smaller.items {n : Nat} {xs : List SExpr} (h : sizeOf (SExpr.list xs) < n) :
    Smaller n xs := by
  intro x hx
  have hlt := List.sizeOf_lt_of_mem hx
  simp only [SExpr.list.sizeOf_spec] at h
  omega

section

variable {n : Nat}

/-- Sequences are parsed by the rules, if smaller forms are. -/
theorem parsesAll_of_toExprs (hn : RulesBelow n) {top : Bool} {xs : List SExpr}
    {es : List Expr} (hxs : Smaller n xs) (h : toExprs top xs = .ok es) :
    ParsesAll top xs es := by
  induction xs generalizing es with
  | nil =>
    cases h
    exact .nil
  | cons x xs ih =>
    rw [toExprs] at h
    obtain ⟨e, he, h⟩ := exists_of_bind_eq_ok h
    obtain ⟨rest, hrest, h⟩ := exists_of_bind_eq_ok h
    cases h
    obtain ⟨hx, hxs⟩ := List.forall_mem_cons.1 hxs
    exact .cons (hn x hx top e he) (ih hxs hrest)

/-- Binding lists are parsed by the rules, if smaller forms are. -/
theorem parsesBindings_of_toBindings (hn : RulesBelow n) {xs : List SExpr}
    {bound : List (String × Expr)} (hxs : Smaller n xs) (h : toBindings xs = .ok bound) :
    ParsesBindings xs (bound.map Prod.fst) (bound.map Prod.snd) := by
  induction xs generalizing bound with
  | nil =>
    cases h
    exact .nil
  | cons x xs ih =>
    obtain ⟨hx, hrest⟩ := List.forall_mem_cons.1 hxs
    unfold toBindings at h
    split at h
    · next heq => cases heq
    · next y e rest heq =>
      obtain ⟨rfl, rfl⟩ := List.cons.inj heq
      obtain ⟨name, hname, h⟩ := exists_of_bind_eq_ok h
      obtain ⟨value, hvalue, h⟩ := exists_of_bind_eq_ok h
      obtain ⟨bound, hbound, h⟩ := exists_of_bind_eq_ok h
      cases h
      obtain ⟨rfl, hnone⟩ := binder_eq_ok_iff.1 hname
      have he : sizeOf e < n := Smaller.items hx e (by simp)
      exact .cons hnone (hn e he false value hvalue) (ih hrest hbound)
    · cases h

/-- Entries are parsed by the rules, if smaller forms are. -/
theorem parsesEntries_of_toEntries (hn : RulesBelow n) {xs : List SExpr}
    {entries : List (String × Expr)} (hxs : Smaller n xs) (hall : ∀ x ∈ xs, x.isEntry = true)
    (h : toEntries xs = .ok entries) : ParsesEntries xs entries := by
  induction xs generalizing entries with
  | nil =>
    cases h
    exact .nil
  | cons x xs ih =>
    obtain ⟨hx, hsmaller⟩ := List.forall_mem_cons.1 hxs
    obtain ⟨hentry, hshape⟩ := List.forall_mem_cons.1 hall
    unfold isEntry at hentry
    split at hentry
    · next k y =>
      rw [toEntries] at h
      obtain ⟨value, hvalue, h⟩ := exists_of_bind_eq_ok h
      obtain ⟨rest, hrest, h⟩ := exists_of_bind_eq_ok h
      cases h
      have hy : sizeOf y < n := Smaller.items hx y (by simp)
      exact .cons (hn y hy false value hvalue) (ih hsmaller hshape hrest)
    · cases hentry

variable {top : Bool} {args : List SExpr} {e : Expr}

/-- Definitions are parsed by the rules, if smaller forms are. -/
theorem parses_define (hn : RulesBelow n) (hargs : Smaller n args)
    (h : toExpr top (.list (.symbol "define" :: args)) = .ok e) :
    Parses top (.list (.symbol "define" :: args)) e := by
  unfold toExpr at h
  simp only [keyword?_define] at h
  split at h
  next htop =>
    subst htop
    split at h
    · obtain ⟨name, hname, h⟩ := exists_of_bind_eq_ok h
      obtain ⟨value, hvalue, h⟩ := exists_of_bind_eq_ok h
      cases h
      obtain ⟨rfl, hnone⟩ := binder_eq_ok_iff.1 hname
      exact .define hnone (hn _ (hargs _ (by simp)) false value hvalue)
    · cases h
  · cases h

/-- Conditionals are parsed by the rules, if smaller forms are. -/
theorem parses_if (hn : RulesBelow n) (hargs : Smaller n args)
    (h : toExpr top (.list (.symbol "if" :: args)) = .ok e) :
    Parses top (.list (.symbol "if" :: args)) e := by
  unfold toExpr at h
  simp only [keyword?_if] at h
  split at h
  · obtain ⟨t, ht, h⟩ := exists_of_bind_eq_ok h
    obtain ⟨c, hc, h⟩ := exists_of_bind_eq_ok h
    obtain ⟨a, ha, h⟩ := exists_of_bind_eq_ok h
    cases h
    exact .ifElse (hn _ (hargs _ (by simp)) false t ht) (hn _ (hargs _ (by simp)) false c hc)
      (hn _ (hargs _ (by simp)) false a ha)
  · cases h

/-- Lambdas are parsed by the rules, if smaller forms are. -/
theorem parses_lambda (hn : RulesBelow n) (hargs : Smaller n args)
    (h : toExpr top (.list (.symbol "lambda" :: args)) = .ok e) :
    Parses top (.list (.symbol "lambda" :: args)) e := by
  unfold toExpr at h
  simp only [keyword?_lambda] at h
  split at h
  next xs body =>
    obtain ⟨-, hbody⟩ := List.forall_mem_cons.1 hargs
    obtain ⟨ps, hps, h⟩ := exists_of_bind_eq_ok h
    split at h
    · cases h
    next hempty =>
    obtain ⟨-, -, h⟩ := exists_of_bind_eq_ok h
    obtain ⟨es, hes, h⟩ := exists_of_bind_eq_ok h
    have hall := parsesAll_of_toExprs hn hbody hes
    obtain ⟨hparams, -, rfl⟩ := (lambda?_eq_ok_iff hall.proper).1 h
    obtain ⟨rfl, hnames⟩ := mapM_binder_eq_ok_iff.1 hps
    exact .lambda hnames hparams (by simpa using hempty) hall
  · cases h

/-- A `let` is parsed by the rules, if smaller forms are. -/
theorem parses_let (hn : RulesBelow n) (hargs : Smaller n args)
    (h : toExpr top (.list (.symbol "let" :: args)) = .ok e) :
    Parses top (.list (.symbol "let" :: args)) e := by
  unfold toExpr at h
  simp only [keyword?_let] at h
  split at h
  next bindings body =>
    obtain ⟨hbindings, hbody⟩ := List.forall_mem_cons.1 hargs
    obtain ⟨bound, hbound, h⟩ := exists_of_bind_eq_ok h
    split at h
    · cases h
    next hempty =>
    obtain ⟨-, -, h⟩ := exists_of_bind_eq_ok h
    obtain ⟨es, hes, h⟩ := exists_of_bind_eq_ok h
    obtain ⟨f, hf, h⟩ := exists_of_bind_eq_ok h
    cases h
    have hall := parsesAll_of_toExprs hn hbody hes
    have hbs := parsesBindings_of_toBindings hn (Smaller.items hbindings) hbound
    obtain ⟨hparams, -, rfl⟩ := (lambda?_eq_ok_iff hall.proper).1 hf
    exact .letIn hbs hparams (by simpa using hempty) hall
  · cases h

/-- What begins with `dict`, a literal or a call, is parsed by the rules, if smaller forms are. -/
theorem parses_dict (hn : RulesBelow n) (hargs : Smaller n args)
    (h : toExpr top (.list (.symbol "dict" :: args)) = .ok e) :
    Parses top (.list (.symbol "dict" :: args)) e := by
  unfold toExpr at h
  simp only [keyword?_dict] at h
  split at h
  next hall =>
    obtain ⟨entries, hentries, h⟩ := exists_of_bind_eq_ok h
    obtain ⟨hnodup, rfl⟩ := dictLiteral_eq_ok_iff.1 h
    exact .dict (parsesEntries_of_toEntries hn hargs (List.all_eq_true.1 hall) hentries) hnodup
  next hall =>
    split at h
    · cases h
    next hany =>
    obtain ⟨es, hes, h⟩ := exists_of_bind_eq_ok h
    cases h
    -- an empty list of arguments consists of entries, so this one is not empty
    have hne : args ≠ [] := by
      rintro rfl
      exact hall rfl
    exact .dictCall hne (by simpa using hany) (parsesAll_of_toExprs hn hargs hes)

/-- Applications are parsed by the rules, if smaller forms are. -/
theorem parses_app (hn : RulesBelow n) {head : SExpr} (hhead : sizeOf head < n)
    (hargs : Smaller n args) (hk : head.keyword? = none)
    (h : toExpr top (.list (head :: args)) = .ok e) : Parses top (.list (head :: args)) e := by
  unfold toExpr at h
  simp only [hk] at h
  obtain ⟨f, hf, h⟩ := exists_of_bind_eq_ok h
  obtain ⟨es, hes, h⟩ := exists_of_bind_eq_ok h
  cases h
  exact .app hk (hn head hhead false f hf) (parsesAll_of_toExprs hn hargs hes)

end

/-- The rules give what the parser gives for a form, if they do so for all smaller ones. -/
theorem parses_of_toExpr {x : SExpr} (hn : RulesBelow (sizeOf x)) {top : Bool} {e : Expr}
    (h : x.toExpr top = .ok e) : Parses top x e := by
  cases x with
  | number n =>
    cases h
    exact .number n
  | boolean b =>
    cases h
    exact .boolean b
  | string s =>
    cases h
    exact .string s
  | symbol x =>
    simp only [toExpr] at h
    split at h <;> cases h
    · exact .prim (by assumption)
    · exact .var (by assumption)
  | dotted => cases h
  | list xs =>
    cases xs with
    | nil => cases h
    | cons head args =>
      have hhead : sizeOf head < sizeOf (SExpr.list (head :: args)) := by
        simp only [SExpr.list.sizeOf_spec, List.cons.sizeOf_spec]
        omega
      have hargs : Smaller (sizeOf (SExpr.list (head :: args))) args := by
        refine Smaller.items ?_
        simp only [SExpr.list.sizeOf_spec, List.cons.sizeOf_spec]
        omega
      cases hk : head.keyword? with
      | none => exact parses_app hn hhead hargs hk h
      | some k =>
        obtain rfl := eq_of_keyword? hk
        cases k with
        | quote =>
          unfold toExpr at h
          simp only [hk] at h
          split at h <;> cases h
          exact .quote _
        | ifElse => exact parses_if hn hargs h
        | lambda => exact parses_lambda hn hargs h
        | dict => exact parses_dict hn hargs h
        | letIn => exact parses_let hn hargs h
        | define => exact parses_define hn hargs h

/-- **Forms of every size are parsed by the rules.** -/
theorem rulesBelow (n : Nat) : RulesBelow n := by
  induction n with
  | zero => exact fun x hx => absurd hx (Nat.not_lt_zero _)
  | succ n ih =>
    intro x hsize top e h
    refine parses_of_toExpr (fun y hy => ih y ?_) h
    omega

/-- **The parser gives an expression exactly when the rules do.** -/
theorem toExpr_eq_ok_iff {top : Bool} {x : SExpr} {e : Expr} :
    x.toExpr top = .ok e ↔ Parses top x e :=
  ⟨rulesBelow _ x (Nat.lt_succ_self _) top e, Parses.toExpr⟩

/-- **Several S-expressions are parsed exactly to what they denote.** -/
theorem toExprs_eq_ok_iff {top : Bool} {xs : List SExpr} {es : List Expr} :
    toExprs top xs = .ok es ↔ ParsesAll top xs es :=
  ⟨parsesAll_of_toExprs (rulesBelow _) (Smaller.items (Nat.lt_succ_self _)), ParsesAll.toExprs⟩

end SExpr

/-- **The texts that are programs.** -/
theorem parseProgram_eq_ok_iff {s : String} {p : List Expr} :
    parseProgram s = .ok p ↔
      ∃ forms, SExpr.readText s = .ok forms ∧ ParsesAll true (unwrapProgram forms) p := by
  constructor
  · intro h
    obtain ⟨forms, hforms, h⟩ := exists_of_bind_eq_ok h
    refine ⟨forms, hforms, SExpr.toExprs_eq_ok_iff.1 ?_⟩
    cases hes : SExpr.toExprs true (unwrapProgram forms) with
    | error fault =>
      rw [hes] at h
      cases h
    | ok es =>
      rw [hes] at h
      cases h
      rfl
  · rintro ⟨forms, hforms, hp⟩
    simp only [parseProgram, hforms, bind, Except.bind, hp.toExprs]
    rfl

end Lambdict
