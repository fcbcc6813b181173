import Lambdict.Proofs.Reading.Syntax

/-!
# The language

Which S-expressions are expressions of the language, said without the expressions they become
(`InLanguage`): the grammar that a manual would give, with one clause for each way to write an
expression.  The parser asks for the same things in many places, some of them only when it has
parsed all parts.

The parser takes what is in the language and nothing else (`exists_parses_iff`).  Where a form binds
names, one condition is not in the grammar, that no name is empty; it holds of every form that is
read from a text (`SExpr.Named`).

What the parser turns away is malformed, and in what it gives no name of a primitive is used for
anything else (`Parses.names`).
-/

namespace Lambdict

/-- A name and a form, as a binding of a `let` and an entry of a literal are written. -/
def pairForm (b : String × SExpr) : SExpr := .list [.symbol b.1, b.2]

/-- The names that head the special forms. -/
def specialNames : List String := ["quote", "if", "lambda", "let", "dict", "define"]

/-- A name that programs may bind. -/
def Bindable (x : String) : Prop := Primitive.ofName? x = none

/-- **The S-expressions that are expressions**; `top` says whether a definition is one too. -/
inductive InLanguage : Bool → SExpr → Prop
  | number {top : Bool} (n : Number) : InLanguage top (.number n)
  | boolean {top : Bool} (b : Bool) : InLanguage top (.boolean b)
  | string {top : Bool} (s : String) : InLanguage top (.string s)
  | symbol {top : Bool} (x : String) : InLanguage top (.symbol x)
  | quote {top : Bool} (d : SExpr) : InLanguage top (.list [.symbol "quote", d])
  | ifElse {top : Bool} {t c a : SExpr} (ht : InLanguage false t) (hc : InLanguage false c)
      (ha : InLanguage false a) : InLanguage top (.list [.symbol "if", t, c, a])
  | lambda {top : Bool} {ps : List String} {body : List SExpr} (hps : ∀ p ∈ ps, Bindable p)
      (hnodup : ps.Nodup) (hne : body ≠ []) (hbody : ∀ x ∈ body, InLanguage true x) :
      InLanguage top (.list (.symbol "lambda" :: .list (ps.map .symbol) :: body))
  | letIn {top : Bool} {bindings : List (String × SExpr)} {body : List SExpr}
      (hps : ∀ b ∈ bindings, Bindable b.1) (hnodup : (bindings.map Prod.fst).Nodup)
      (hvalues : ∀ b ∈ bindings, InLanguage false b.2) (hne : body ≠ [])
      (hbody : ∀ x ∈ body, InLanguage true x) :
      InLanguage top (.list (.symbol "let" :: .list (bindings.map pairForm) :: body))
  | dict {top : Bool} {entries : List (String × SExpr)} (hnodup : (entries.map Prod.fst).Nodup)
      (hvalues : ∀ b ∈ entries, InLanguage false b.2) :
      InLanguage top (.list (.symbol "dict" :: entries.map pairForm))
  | dictCall {top : Bool} {args : List SExpr} (hshape : ∀ x ∈ args, ∀ b, x ≠ pairForm b)
      (hargs : ∀ x ∈ args, InLanguage false x) :
      InLanguage top (.list (.symbol "dict" :: args))
  | app {top : Bool} {head : SExpr} {args : List SExpr}
      (hspecial : ∀ x ∈ specialNames, head ≠ .symbol x) (hhead : InLanguage false head)
      (hargs : ∀ x ∈ args, InLanguage false x) : InLanguage top (.list (head :: args))
  | define {x : String} {y : SExpr} (hx : Bindable x) (hy : InLanguage false y) :
      InLanguage true (.list [.symbol "define", .symbol x, y])

/-- A definition is an expression only where it may stand. -/
theorem not_inLanguage_define {args : List SExpr} :
    ¬ InLanguage false (.list (.symbol "define" :: args)) := by
  intro h
  generalize hx : SExpr.list (.symbol "define" :: args) = x at h
  generalize htop : false = top at h
  cases h with
  | app hspecial =>
    obtain ⟨rfl, -⟩ := List.cons.inj (SExpr.list.inj hx)
    exact hspecial "define" (by decide) rfl
  | define => cases htop
  | _ => simp at hx

/-! ## What the parser takes is in the language -/

theorem keyword?_eq_none_iff {x : SExpr} :
    x.keyword? = none ↔ ∀ y ∈ specialNames, x ≠ .symbol y := by
  cases x with
  | symbol y =>
    simp only [SExpr.keyword?, Keyword.ofName?, specialNames, List.mem_cons, List.not_mem_nil,
      or_false, ne_eq, SExpr.symbol.injEq]
    grind
  | _ => simp [SExpr.keyword?]

theorem isEntry_eq_false_iff {x : SExpr} : x.isEntry = false ↔ ∀ b, x ≠ pairForm b := by
  constructor
  · rintro h b rfl
    cases h
  · intro h
    unfold SExpr.isEntry
    split
    · next k y => exact absurd rfl (h (k, y))
    · rfl

mutual

/-- What has an expression is in the language. -/
theorem Parses.inLanguage : ∀ {top : Bool} {x : SExpr} {e : Expr}, Parses top x e →
    InLanguage top x
  | _, _, _, .number n => .number n
  | _, _, _, .boolean b => .boolean b
  | _, _, _, .string s => .string s
  | _, _, _, .prim _ | _, _, _, .var _ => .symbol _
  | _, _, _, .define hx h => .define hx h.inLanguage
  | _, _, _, .quote d => .quote d
  | _, _, _, .ifElse ht hc ha => .ifElse ht.inLanguage hc.inLanguage ha.inLanguage
  | _, _, _, .lambda hp hps hbody h => .lambda hp hps.2 hbody h.inLanguage
  | _, _, _, .letIn hb hps hbody h => by
    obtain ⟨bindings, rfl, rfl, hnames, hvalues⟩ := hb.inLanguage
    exact .letIn hnames hps.2 hvalues hbody h.inLanguage
  | _, _, _, .dict h hnodup => by
    obtain ⟨entries, rfl, hkeys, hvalues⟩ := h.inLanguage
    rw [← hkeys] at hnodup
    exact .dict hnodup hvalues
  | _, _, _, .dictCall _ hshape h =>
    .dictCall (fun x hx => isEntry_eq_false_iff.1 (hshape x hx)) h.inLanguage
  | _, _, _, .app hk hf h => .app (keyword?_eq_none_iff.1 hk) hf.inLanguage h.inLanguage

theorem ParsesAll.inLanguage : ∀ {top : Bool} {xs : List SExpr} {es : List Expr},
    ParsesAll top xs es → ∀ x ∈ xs, InLanguage top x
  | _, _, _, .nil => fun _ hx => nomatch hx
  | _, _, _, .cons h hs => List.forall_mem_cons.2 ⟨h.inLanguage, hs.inLanguage⟩

theorem ParsesBindings.inLanguage : ∀ {xs : List SExpr} {ps : List String} {vs : List Expr},
    ParsesBindings xs ps vs → ∃ bindings : List (String × SExpr),
      xs = bindings.map pairForm ∧ ps = bindings.map Prod.fst ∧
        (∀ b ∈ bindings, Bindable b.1) ∧ ∀ b ∈ bindings, InLanguage false b.2
  | _, _, _, .nil => ⟨[], rfl, rfl, by simp, by simp⟩
  | _, _, _, @ParsesBindings.cons x y _ _ _ _ hx h hs => by
    obtain ⟨bindings, rfl, rfl, hnames, hvalues⟩ := hs.inLanguage
    exact ⟨(x, y) :: bindings, rfl, rfl, List.forall_mem_cons.2 ⟨hx, hnames⟩,
      List.forall_mem_cons.2 ⟨h.inLanguage, hvalues⟩⟩

theorem ParsesEntries.inLanguage : ∀ {xs : List SExpr} {entries : List (String × Expr)},
    ParsesEntries xs entries → ∃ forms : List (String × SExpr),
      xs = forms.map pairForm ∧ forms.map Prod.fst = entries.map Prod.fst ∧
        ∀ b ∈ forms, InLanguage false b.2
  | _, _, .nil => ⟨[], rfl, rfl, by simp⟩
  | _, _, @ParsesEntries.cons k y _ _ _ h hs => by
    obtain ⟨forms, rfl, hkeys, hvalues⟩ := hs.inLanguage
    exact ⟨(k, y) :: forms, rfl, by rw [List.map_cons, List.map_cons, hkeys],
      List.forall_mem_cons.2 ⟨h.inLanguage, hvalues⟩⟩

end

/-! ## What is in the language the parser takes -/

theorem exists_parsesAll {top : Bool} : ∀ {xs : List SExpr}, (∀ x ∈ xs, ∃ e, Parses top x e) →
    ∃ es, ParsesAll top xs es
  | [], _ => ⟨[], .nil⟩
  | x :: xs, h => by
    obtain ⟨⟨e, he⟩, hxs⟩ := List.forall_mem_cons.1 h
    obtain ⟨es, hes⟩ := exists_parsesAll hxs
    exact ⟨e :: es, .cons he hes⟩

theorem exists_parsesBindings : ∀ {bindings : List (String × SExpr)},
    (∀ b ∈ bindings, Bindable b.1) → (∀ b ∈ bindings, ∃ e, Parses false b.2 e) →
      ∃ vs, ParsesBindings (bindings.map pairForm) (bindings.map Prod.fst) vs
  | [], _, _ => ⟨[], .nil⟩
  | b :: bindings, hnames, hvalues => by
    obtain ⟨hb, hnames⟩ := List.forall_mem_cons.1 hnames
    obtain ⟨⟨e, he⟩, hvalues⟩ := List.forall_mem_cons.1 hvalues
    obtain ⟨vs, hvs⟩ := exists_parsesBindings hnames hvalues
    exact ⟨e :: vs, .cons hb he hvs⟩

theorem exists_parsesEntries : ∀ {forms : List (String × SExpr)},
    (∀ b ∈ forms, ∃ e, Parses false b.2 e) → ∃ entries,
      entries.map Prod.fst = forms.map Prod.fst ∧ ParsesEntries (forms.map pairForm) entries
  | [], _ => ⟨[], rfl, .nil⟩
  | b :: forms, hvalues => by
    obtain ⟨⟨e, he⟩, hvalues⟩ := List.forall_mem_cons.1 hvalues
    obtain ⟨entries, hkeys, hentries⟩ := exists_parsesEntries hvalues
    exact ⟨(b.1, e) :: entries, by rw [List.map_cons, List.map_cons, hkeys], .cons he hentries⟩

namespace SExpr

theorem Named.of_mem {xs : List SExpr} (h : NamedAll xs) {x : SExpr} (hx : x ∈ xs) : x.Named :=
  namedAll_iff.1 h x hx

/-- No name in a parameter list is empty. -/
theorem not_mem_of_namedAll {ps : List String} (h : NamedAll (ps.map .symbol)) : "" ∉ ps :=
  fun hmem => Named.of_mem h (List.mem_map_of_mem hmem) rfl

/-- No name in a binding list is empty, and the bound forms are named too. -/
theorem named_of_pairForms {bindings : List (String × SExpr)}
    (h : NamedAll (bindings.map pairForm)) :
    "" ∉ bindings.map Prod.fst ∧ ∀ b ∈ bindings, b.2.Named := by
  have hpair (b : String × SExpr) (hb : b ∈ bindings) : b.1 ≠ "" ∧ b.2.Named := by
    obtain ⟨hname, hvalue, -⟩ := Named.of_mem h (List.mem_map_of_mem hb)
    exact ⟨hname, hvalue⟩
  refine ⟨fun hmem => ?_, fun b hb => (hpair b hb).2⟩
  obtain ⟨b, hb, hempty⟩ := List.mem_map.1 hmem
  exact (hpair b hb).1 hempty

end SExpr

/-- **What is in the language has an expression.** -/
theorem InLanguage.exists_parses {top : Bool} {x : SExpr} (h : InLanguage top x) (hx : x.Named) :
    ∃ e, Parses top x e := by
  induction h with
  | number n => exact ⟨_, .number n⟩
  | boolean b => exact ⟨_, .boolean b⟩
  | string s => exact ⟨_, .string s⟩
  | symbol x =>
    cases hp : Primitive.ofName? x with
    | none => exact ⟨_, .var hp⟩
    | some p => exact ⟨_, .prim hp⟩
  | quote d => exact ⟨_, .quote d⟩
  | ifElse _ _ _ iht ihc iha =>
    obtain ⟨-, ht, hc, ha, -⟩ := hx
    obtain ⟨_, ht⟩ := iht ht
    obtain ⟨_, hc⟩ := ihc hc
    obtain ⟨_, ha⟩ := iha ha
    exact ⟨_, .ifElse ht hc ha⟩
  | lambda hps hnodup hne _ ih =>
    obtain ⟨-, hnames, hbody⟩ := hx
    obtain ⟨es, hes⟩ := exists_parsesAll fun y hy => ih y hy (SExpr.Named.of_mem hbody hy)
    exact ⟨_, .lambda hps ⟨SExpr.not_mem_of_namedAll hnames, hnodup⟩ hne hes⟩
  | letIn hps hnodup _ hne _ ihvalues ihbody =>
    obtain ⟨-, hbindings, hbody⟩ := hx
    obtain ⟨hnames, hvalues⟩ := SExpr.named_of_pairForms hbindings
    obtain ⟨vs, hvs⟩ := exists_parsesBindings hps fun b hb => ihvalues b hb (hvalues b hb)
    obtain ⟨es, hes⟩ := exists_parsesAll fun y hy => ihbody y hy (SExpr.Named.of_mem hbody hy)
    exact ⟨_, .letIn hvs ⟨hnames, hnodup⟩ hne hes⟩
  | dict hnodup _ ih =>
    obtain ⟨-, hvalues⟩ := SExpr.named_of_pairForms hx.2
    obtain ⟨entries, hkeys, hentries⟩ := exists_parsesEntries fun b hb => ih b hb (hvalues b hb)
    exact ⟨_, .dict hentries (hkeys ▸ hnodup)⟩
  | @dictCall _ args hshape _ ih =>
    obtain ⟨es, hes⟩ := exists_parsesAll fun y hy => ih y hy (SExpr.Named.of_mem hx.2 hy)
    -- without arguments this is the empty literal, and no call
    by_cases hne : args = []
    · subst hne
      exact ⟨_, .dict .nil List.nodup_nil⟩
    · exact ⟨_, .dictCall hne (fun y hy => isEntry_eq_false_iff.2 (hshape y hy)) hes⟩
  | app hspecial _ _ ihhead ihargs =>
    obtain ⟨f, hf⟩ := ihhead hx.1
    obtain ⟨es, hes⟩ := exists_parsesAll fun y hy => ihargs y hy (SExpr.Named.of_mem hx.2 hy)
    exact ⟨_, .app (keyword?_eq_none_iff.2 hspecial) hf hes⟩
  | define hname _ ih =>
    obtain ⟨-, -, hy, -⟩ := hx
    obtain ⟨e, he⟩ := ih hy
    exact ⟨_, .define hname he⟩

/-- **The parser takes what is in the language**, and nothing else. -/
theorem exists_parses_iff {top : Bool} {x : SExpr} (hx : x.Named) :
    (∃ e, Parses top x e) ↔ InLanguage top x :=
  ⟨fun ⟨_, h⟩ => h.inLanguage, fun h => h.exists_parses hx⟩

/-! ## Names -/

mutual

/-- **No variable, parameter or defined name is that of a primitive.** -/
theorem Parses.names : ∀ {top : Bool} {x : SExpr} {e : Expr}, Parses top x e →
    e.NamesWithin Bindable
  | _, _, _, .number _ | _, _, _, .boolean _ | _, _, _, .string _ | _, _, _, .prim _
  | _, _, _, .quote _ => trivial
  | _, _, _, .var h => h
  | _, _, _, .define hx h => ⟨hx, h.names⟩
  | _, _, _, .ifElse ht hc ha => ⟨trivial, ht.names, hc.names, ha.names⟩
  | _, _, _, .lambda hp _ _ h => ⟨hp, h.names⟩
  | _, _, _, .letIn hb _ _ h => ⟨trivial, ⟨hb.names.1, h.names⟩, hb.names.2⟩
  | _, _, _, .dict h _ => ⟨trivial, h.names⟩
  | _, _, _, .dictCall _ _ h => ⟨trivial, trivial, h.names⟩
  | _, _, _, .app _ hf h => ⟨trivial, hf.names, h.names⟩

theorem ParsesAll.names : ∀ {top : Bool} {xs : List SExpr} {es : List Expr},
    ParsesAll top xs es → Expr.EveryAll (Expr.NodeNames Bindable) es
  | _, _, _, .nil => trivial
  | _, _, _, .cons h hs => ⟨h.names, hs.names⟩

theorem ParsesBindings.names : ∀ {xs : List SExpr} {ps : List String} {vs : List Expr},
    ParsesBindings xs ps vs →
      (∀ p ∈ ps, Bindable p) ∧ Expr.EveryAll (Expr.NodeNames Bindable) vs
  | _, _, _, .nil => ⟨by simp, trivial⟩
  | _, _, _, .cons hx h hs => ⟨List.forall_mem_cons.2 ⟨hx, hs.names.1⟩, h.names, hs.names.2⟩

theorem ParsesEntries.names : ∀ {xs : List SExpr} {entries : List (String × Expr)},
    ParsesEntries xs entries → Expr.EveryEntry (Expr.NodeNames Bindable) entries
  | _, _, .nil => trivial
  | _, _, .cons h hs => ⟨h.names, hs.names⟩

end

/-! ## Forms and programs -/

theorem SExpr.toExpr_of_inLanguage {top : Bool} {x : SExpr} (hx : x.Named)
    (h : InLanguage top x) : ∃ e, x.toExpr top = .ok e ∧ e.NamesWithin Bindable := by
  obtain ⟨e, he⟩ := h.exists_parses hx
  exact ⟨e, he.toExpr, he.names⟩

theorem SExpr.toExpr_of_not_inLanguage {top : Bool} {x : SExpr} (h : ¬ InLanguage top x) :
    ∃ fault, x.toExpr top = .error fault := by
  cases he : x.toExpr top with
  | ok e => exact absurd (SExpr.toExpr_eq_ok_iff.1 he).inLanguage h
  | error fault => exact ⟨fault, rfl⟩

theorem namedAll_unwrapProgram {forms : List SExpr} (h : SExpr.NamedAll forms) :
    SExpr.NamedAll (unwrapProgram forms) := by
  unfold unwrapProgram
  split
  · exact h.1.2
  · exact h

section

variable {s : String} {forms : List SExpr}

theorem parseProgram_of_inLanguage (hread : SExpr.readText s = .ok forms)
    (h : ∀ x ∈ unwrapProgram forms, InLanguage true x) :
    ∃ p, parseProgram s = .ok p ∧ ∀ e ∈ p, e.NamesWithin Bindable := by
  have hnamed := namedAll_unwrapProgram (SExpr.readText_named hread)
  obtain ⟨p, hp⟩ := exists_parsesAll fun x hx => (h x hx).exists_parses (.of_mem hnamed hx)
  exact ⟨p, parseProgram_eq_ok_iff.2 ⟨forms, hread, hp⟩, Expr.everyAll_iff.1 hp.names⟩

theorem parseProgram_of_not_inLanguage (hread : SExpr.readText s = .ok forms)
    (h : ∃ x ∈ unwrapProgram forms, ¬ InLanguage true x) :
    ∃ fault, parseProgram s = .error (.condition (.malformed fault)) := by
  obtain ⟨x, hx, hnot⟩ := h
  cases hes : SExpr.toExprs true (unwrapProgram forms) with
  | ok es => exact absurd ((SExpr.toExprs_eq_ok_iff.1 hes).inLanguage x hx) hnot
  | error fault =>
    refine ⟨fault, ?_⟩
    simp only [parseProgram, hread, bind, Except.bind, hes]
    rfl

end

/-- **The parser accepts exactly the language.**  A form that is in it becomes an expression in
which only names that programs may bind are used as names; a form that is not is malformed, and
nothing else goes wrong.  The same holds of the forms of a program, of which each may be a
definition.  The forms of a text are all named. -/
theorem toExpr_inLanguage :
    (∀ {x : SExpr}, x.Named → ∀ top,
      (InLanguage top x → ∃ e, x.toExpr top = .ok e ∧ e.NamesWithin Bindable) ∧
      (¬ InLanguage top x → ∃ fault, x.toExpr top = .error fault)) ∧
    ∀ {s : String} {forms : List SExpr}, SExpr.readText s = .ok forms →
      (∀ x ∈ forms, x.Named) ∧
      ((∀ x ∈ unwrapProgram forms, InLanguage true x) →
        ∃ p, parseProgram s = .ok p ∧ ∀ e ∈ p, e.NamesWithin Bindable) ∧
      ((∃ x ∈ unwrapProgram forms, ¬ InLanguage true x) →
        ∃ fault, parseProgram s = .error (.condition (.malformed fault))) :=
  ⟨fun hx _ => ⟨SExpr.toExpr_of_inLanguage hx, SExpr.toExpr_of_not_inLanguage⟩,
    fun hread => ⟨fun _ hx => .of_mem (SExpr.readText_named hread) hx,
      parseProgram_of_inLanguage hread, parseProgram_of_not_inLanguage hread⟩⟩

/-- A definition of the name `if`, which is no primitive, is in the language as a form of a program
only. -/
theorem toExpr_inLanguage_define :
    let form := SExpr.list [.symbol "define", .symbol "if", .number (.int 1)]
    (∃ p, parseProgram "(define if 1)" = .ok p ∧ ∀ e ∈ p, e.NamesWithin Bindable) ∧
      ∃ fault, form.toExpr false = .error fault := by
  intro form
  have hread : SExpr.readText "(define if 1)" = .ok [form] := rfl
  obtain ⟨hnamed, hprogram, -⟩ := toExpr_inLanguage.2 hread
  refine ⟨hprogram fun x hx => ?_, ?_⟩
  · obtain rfl : x = form := List.mem_singleton.1 hx
    exact .define rfl (.number _)
  · have hform := hnamed form (List.mem_singleton.2 rfl)
    exact (toExpr_inLanguage.1 hform false).2 not_inLanguage_define

end Lambdict
