import Lambdict.Program
import Lambdict.Proofs.WellFormed

/-!
# Parsed programs

What the parser accepts is well formed, and quotes only readable data (`parseProgram_sound`).

That no name is empty goes back to the lexer: a symbol is a run of at least one character
(`lexFrom_sound`), and neither reading nor parsing makes up symbols of its own, apart from the
keyword that a quote mark stands for (`SExpr.readText_named`).  All else is checked form by form.
Since a `let` goes two lists deep at once, the forms are taken by induction on their size.
-/

namespace Lambdict

/-! ## Symbols are not empty -/

/-- In a symbol at least one character has been read. -/
def Mode.Sound : Mode → Prop
  | .symbol read => read ≠ []
  | _ => True

/-- A token that is a symbol has a text. -/
def Token.Sound : Token → Prop
  | .symbol text => text ≠ ""
  | _ => True

/-- Characters that were gathered make a text that is not empty. -/
theorem ofList_reverse_ne {cs : List Char} (h : cs ≠ []) : String.ofList cs.reverse ≠ "" := by
  intro he
  have := congrArg String.toList he
  simp at this
  exact h this

/-- A character that begins a token leaves the lexer sound. -/
theorem Mode.begin_sound (i : Nat) (c : Char) :
    (Mode.begin i c).1.Sound ∧ ∀ t ∈ (Mode.begin i c).2, t.Sound := by
  unfold Mode.begin
  repeat' split
  all_goals simp [Mode.Sound, Token.Sound]

/-- A step of the lexer keeps it sound and gives sound tokens. -/
theorem Mode.step_sound (i : Nat) (c : Char) {m : Mode} (hm : m.Sound) :
    (m.step i c).1.Sound ∧ ∀ t ∈ (m.step i c).2, t.Sound := by
  cases m with
  | between => exact Mode.begin_sound i c
  | symbol read =>
    obtain ⟨hb, ht⟩ := Mode.begin_sound i c
    simp only [Mode.step]
    split
    · simp [Mode.Sound]
    · split
      · simp [Mode.Sound]
      · refine ⟨hb, fun t h => ?_⟩
        rcases List.mem_cons.1 h with rfl | h
        · exact ofList_reverse_ne hm
        · exact ht t h
  | string start read escaped | line | block outer half =>
    simp only [Mode.step]
    repeat' split
    all_goals simp [Mode.Sound, Token.Sound]

/-- At the end of the text the lexer gives a sound token or none. -/
theorem Mode.finish_sound {m : Mode} (hm : m.Sound) : ∀ t ∈ m.finish.1, t.Sound := by
  cases m with
  | symbol read =>
    intro t ht
    obtain rfl : t = .symbol (String.ofList read.reverse) := by simpa [Mode.finish] using ht
    exact ofList_reverse_ne hm
  | _ => simp [Mode.finish]

/-- **All tokens of a text are sound.** -/
theorem lexFrom_sound {m : Mode} (hm : m.Sound) (i : Nat) (cs : List Char) :
    ∀ t ∈ (lexFrom m i cs).1, t.Sound := by
  induction cs generalizing m i with
  | nil => exact Mode.finish_sound hm
  | cons c cs ih =>
    obtain ⟨hm', ht⟩ := Mode.step_sound i c hm
    intro t h
    rcases List.mem_append.1 h with h | h
    · exact ht t h
    · exact ih hm' (i + 1) t h

namespace SExpr

mutual

/-- All symbols in an S-expression have a text. -/
def Named : SExpr → Prop
  | .symbol x => x ≠ ""
  | .list xs => NamedAll xs
  | .dotted xs t => NamedAll xs ∧ t.Named
  | .number _ | .boolean _ | .string _ => True

/-- The same of several S-expressions. -/
def NamedAll : List SExpr → Prop
  | [] => True
  | x :: xs => x.Named ∧ NamedAll xs

end

/-- All symbols in several forms have a text if those in each do. -/
theorem namedAll_iff {xs : List SExpr} : NamedAll xs ↔ ∀ x ∈ xs, x.Named := by
  induction xs with
  | nil => simp [NamedAll]
  | cons x xs ih => simp [NamedAll, ih]

theorem NamedAll.reverse {xs : List SExpr} (h : NamedAll xs) : NamedAll xs.reverse :=
  namedAll_iff.2 fun x hx => namedAll_iff.1 h x (List.mem_reverse.1 hx)

/-- All symbols in an open context have a text. -/
def Frame.Named : Frame → Prop
  | .quote => True
  | .list items | .dot items => NamedAll items
  | .tail items last => NamedAll items ∧ last.Named

/-- All symbols in what comes of a token have a text. -/
def Step.Named : Step → Prop
  | .shift stack => ∀ f ∈ stack, f.Named
  | .form x => x.Named
  | .refuse _ _ => True

/-- A complete form is put where it belongs, and symbols go on to have a text. -/
theorem complete_named {x : SExpr} (hx : x.Named) {stack : List Frame}
    (hs : ∀ f ∈ stack, f.Named) : (complete x stack).Named := by
  induction stack generalizing x with
  | nil => exact hx
  | cons f stack ih =>
    obtain ⟨hf, hstack⟩ := List.forall_mem_cons.1 hs
    cases f with
    -- the form that is complete now completes the quotation around it too
    | quote =>
      have hquoted : Named (.list [.symbol "quote", x]) := ⟨by simp [Named], hx, trivial⟩
      exact ih hquoted hstack
    | list items => exact List.forall_mem_cons.2 ⟨⟨hx, hf⟩, hstack⟩
    | dot items => exact List.forall_mem_cons.2 ⟨⟨hf, hx⟩, hstack⟩
    | tail items last => exact List.forall_mem_cons.2 ⟨hf, hstack⟩

/-- What the text of a symbol token is read as is named. -/
theorem ofSymbol_named {text : String} {x : SExpr} (ht : text ≠ "") (h : ofSymbol text = .ok x) :
    x.Named := by
  unfold ofSymbol at h
  split at h
  · cases h
    trivial
  split at h
  · cases h
    trivial
  split at h
  · cases h
    exact ht
  split at h <;> cases h
  trivial

/-- A token that begins a form adds no symbol without a text. -/
theorem beginForm_named {t : Token} (ht : t.Sound) {stack : List Frame}
    (hs : ∀ f ∈ stack, f.Named) : (beginForm t stack).Named := by
  cases t with
  | quote => exact List.forall_mem_cons.2 ⟨trivial, hs⟩
  | opening c => exact List.forall_mem_cons.2 ⟨trivial, hs⟩
  | closing c => trivial
  | string body =>
    refine complete_named ?_ hs
    trivial
  | symbol text =>
    simp only [beginForm]
    split
    · next h => exact complete_named (ofSymbol_named ht h) hs
    · trivial

/-- No token that the reader takes adds a symbol without a text. -/
theorem feed_named {t : Token} (ht : t.Sound) {stack : List Frame}
    (hs : ∀ f ∈ stack, f.Named) : (feed t stack).Named := by
  unfold feed
  split
  · next items rest =>
    obtain ⟨hf, hrest⟩ := List.forall_mem_cons.1 hs
    split
    · refine complete_named ?_ hrest
      exact NamedAll.reverse hf
    split
    · split
      · trivial
      · exact List.forall_mem_cons.2 ⟨hf, hrest⟩
    · exact beginForm_named ht hs
  · next items last rest =>
    obtain ⟨hf, hrest⟩ := List.forall_mem_cons.1 hs
    split
    · refine complete_named ?_ hrest
      exact ⟨NamedAll.reverse hf.1, hf.2⟩
    · trivial
  · exact beginForm_named ht hs

/-- **In all forms that are read the symbols have a text.** -/
theorem readAllFrom_named (fault : Option Malformed) {stack : List Frame} {done : List SExpr}
    {tokens : List Token} {xs : List SExpr} (hs : ∀ f ∈ stack, f.Named) (hd : NamedAll done)
    (ht : ∀ t ∈ tokens, t.Sound)
    (h : (TokenStream.readAllFrom fault stack done tokens).1 = .ok xs) : NamedAll xs := by
  induction tokens generalizing stack done with
  | nil =>
    cases fault with
    | some f => cases h
    | none =>
      simp only [TokenStream.readAllFrom, TokenStream.atEnd] at h
      split at h
      · cases h
        exact hd.reverse
      · cases h
  | cons t tokens ih =>
    obtain ⟨ht₁, ht⟩ := List.forall_mem_cons.1 ht
    have hfeed := feed_named ht₁ hs
    rw [TokenStream.readAllFrom] at h
    split at h
    · next heq =>
      rw [heq] at hfeed
      exact ih hfeed hd ht h
    · next heq =>
      rw [heq] at hfeed
      refine ih ?_ ?_ ht h
      · simp
      · exact ⟨hfeed, hd⟩
    · cases h

/-- **The symbols of a text that can be read are not empty.** -/
theorem readText_named {s : String} {xs : List SExpr} (h : readText s = .ok xs) :
    NamedAll xs := by
  refine readAllFrom_named _ ?_ ?_ ?_ h
  · simp
  · trivial
  · exact lexFrom_sound (m := .between) trivial 0 s.toList

/-! ## Forms -/

/-- A computation that gives a result gives one at its first step. -/
theorem exists_of_bind_eq_ok {ε α β : Type} {x : Except ε α} {f : α → Except ε β} {b : β}
    (h : x >>= f = .ok b) : ∃ a, x = .ok a ∧ f a = .ok b := by
  cases x with
  | error e => cases h
  | ok a => exact ⟨a, rfl, h⟩

mutual

/-- Quoted forms are readable data. -/
theorem toDatum_readable : ∀ x : SExpr, x.toDatum.Readable
  | .number _ | .boolean _ | .string _ | .symbol _ => trivial
  | .list xs =>
    have hempty : Value.empty.Readable := trivial
    toChain_readable hempty xs
  | .dotted xs t => toChain_readable (toDatum_readable t) xs

theorem toChain_readable {tail : Value} (ht : tail.Readable) :
    ∀ xs : List SExpr, (toChain tail xs).Readable
  | [] => ht
  | x :: xs => ⟨toDatum_readable x, toChain_readable ht xs⟩

end

/-- Readable data is no dictionary. -/
theorem not_isDict_of_readable {d : Value} (h : d.Readable) : d.isDict = false := by
  cases d with
  | dict => exact h.elim
  | _ => rfl

/-- What the parser makes sure of in an expression; `top` says whether it may be a definition. -/
def Parsed (top : Bool) (e : Expr) : Prop :=
  e.Every Expr.NodeSound ∧ (top = false → e.isDefinition = false)

/-- Forms below a size in which all symbols have a text. -/
def Below (n : Nat) (xs : List SExpr) : Prop := ∀ x ∈ xs, sizeOf x < n ∧ x.Named

/-- Whatever a form below a size gives is as the parser makes sure. -/
def ParseBelow (n : Nat) : Prop :=
  ∀ x : SExpr, sizeOf x < n → x.Named → ∀ top e, x.toExpr top = .ok e → Parsed top e

/-- A form among smaller ones gives what the parser makes sure of. -/
theorem ParseBelow.of_mem {n : Nat} (hn : ParseBelow n) {xs : List SExpr} (hxs : Below n xs)
    {x : SExpr} (hx : x ∈ xs) {top : Bool} {e : Expr} (h : x.toExpr top = .ok e) : Parsed top e :=
  hn x (hxs x hx).1 (hxs x hx).2 top e h

/-- The items of a form are smaller than the form is. -/
theorem Below.items {n : Nat} {xs : List SExpr} (hsize : sizeOf (SExpr.list xs) < n)
    (hxs : NamedAll xs) : Below n xs := by
  intro x hx
  refine ⟨?_, namedAll_iff.1 hxs x hx⟩
  have hlt := List.sizeOf_lt_of_mem hx
  simp only [SExpr.list.sizeOf_spec] at hsize
  omega

/-- A name that is bound has a text. -/
theorem binder_ne {form : BindingForm} {x : SExpr} {name : String} (hx : x.Named)
    (h : binder form x = .ok name) : name ≠ "" := by
  cases x with
  | symbol y =>
    simp only [binder] at h
    split at h <;> cases h
    exact hx
  | _ => cases h

/-- A lambda that passes its checks is as the parser makes sure. -/
theorem lambda?_parsed {ps : List String} {b : List Expr} {e : Expr}
    (hb : Expr.EveryAll Expr.NodeSound b) (h : Expr.lambda? ps b = .ok e) :
    Parsed false e := by
  unfold Expr.lambda? at h
  obtain ⟨⟨⟩, hc, h⟩ := exists_of_bind_eq_ok h
  split at h
  · cases h
  cases h
  refine ⟨⟨⟨?_, trivial⟩, hb⟩, fun _ => rfl⟩
  unfold checkParameters at hc
  split at hc
  · cases hc
  next hempty =>
  split at hc
  · cases hc
  next hnodup =>
  split at hc
  · cases hc
  next hbody =>
  -- all three checks were passed: names, repetitions, and that there is a body
  refine ⟨fun h => hempty ?_, by simpa using hnodup, by simpa using hbody⟩
  exact List.any_eq_true.2 ⟨"", h, rfl⟩

/-- Forms in a sequence are parsed one by one, and definitions are among them only where they may
be. -/
theorem toExprs_parsed {n : Nat} (hn : ParseBelow n) {top : Bool} {xs : List SExpr}
    {es : List Expr} (hxs : Below n xs) (h : toExprs top xs = .ok es) :
    Expr.EveryAll Expr.NodeSound es ∧ (top = false → ∀ e ∈ es, e.isDefinition = false) := by
  induction xs generalizing es with
  | nil =>
    cases h
    exact ⟨trivial, fun _ _ he => nomatch he⟩
  | cons x xs ih =>
    rw [toExprs] at h
    obtain ⟨e, he, h⟩ := exists_of_bind_eq_ok h
    obtain ⟨rest, hrest, h⟩ := exists_of_bind_eq_ok h
    cases h
    obtain ⟨hx, hxs⟩ := List.forall_mem_cons.1 hxs
    obtain ⟨hp, hd⟩ := hn x hx.1 hx.2 top e he
    obtain ⟨hps, hds⟩ := ih hxs hrest
    exact ⟨⟨hp, hps⟩, fun ht => List.forall_mem_cons.2 ⟨hd ht, hds ht⟩⟩

/-- Names with expressions, as a binding list or a dictionary literal has them. -/
def BoundParsed (bound : List (String × Expr)) : Prop :=
  "" ∉ bound.map Prod.fst ∧ Expr.EveryAll Expr.NodeSound (bound.map Prod.snd) ∧
    ∀ e ∈ bound.map Prod.snd, e.isDefinition = false

theorem BoundParsed.nil : BoundParsed [] :=
  ⟨by simp, trivial, fun _ he => nomatch he⟩

theorem BoundParsed.cons {n : Nat} (hn : ParseBelow n) {name : String} {x y : SExpr} {e : Expr}
    {bound : List (String × Expr)} (hname : name ≠ "") (hsize : sizeOf (SExpr.list [x, y]) < n)
    (hy : y.Named) (he : y.toExpr false = .ok e) (h : BoundParsed bound) :
    BoundParsed ((name, e) :: bound) := by
  have hlt : sizeOf y < n := by
    simp at hsize
    omega
  obtain ⟨hp, hd⟩ := hn y hlt hy false e he
  obtain ⟨hnames, hps, hds⟩ := h
  refine ⟨?_, ⟨hp, hps⟩, List.forall_mem_cons.2 ⟨hd rfl, hds⟩⟩
  simp only [List.map_cons, List.mem_cons, not_or]
  exact ⟨hname.symm, hnames⟩

/-- The bindings of a `let` are parsed to names with expressions. -/
theorem toBindings_parsed {n : Nat} (hn : ParseBelow n) {xs : List SExpr}
    {bound : List (String × Expr)} (hxs : Below n xs)
    (h : toBindings xs = .ok bound) : BoundParsed bound := by
  induction xs generalizing bound with
  | nil =>
    cases h
    exact .nil
  | cons x xs ih =>
    obtain ⟨⟨hsize, hx⟩, hrest⟩ := List.forall_mem_cons.1 hxs
    unfold toBindings at h
    split at h
    · next heq => cases heq
    · next y z rest heq =>
      obtain ⟨rfl, rfl⟩ := List.cons.inj heq
      obtain ⟨name, hname, h⟩ := exists_of_bind_eq_ok h
      obtain ⟨e, he, h⟩ := exists_of_bind_eq_ok h
      obtain ⟨bound', hbound, h⟩ := exists_of_bind_eq_ok h
      cases h
      exact .cons hn (binder_ne hx.1 hname) hsize hx.2.1 he (ih hrest hbound)
    · cases h

/-- The entries of a literal are parsed to keys with expressions. -/
theorem toEntries_parsed {n : Nat} (hn : ParseBelow n) {xs : List SExpr}
    {entries : List (String × Expr)} (hxs : Below n xs)
    (h : toEntries xs = .ok entries) : BoundParsed entries := by
  induction xs generalizing entries with
  | nil =>
    cases h
    exact .nil
  | cons x xs ih =>
    obtain ⟨⟨hsize, hx⟩, hrest⟩ := List.forall_mem_cons.1 hxs
    unfold toEntries at h
    split at h
    · next heq => cases heq
    · next k z rest heq =>
      obtain ⟨rfl, rfl⟩ := List.cons.inj heq
      obtain ⟨e, he, h⟩ := exists_of_bind_eq_ok h
      obtain ⟨entries', hentries, h⟩ := exists_of_bind_eq_ok h
      cases h
      exact .cons hn hx.1 hsize hx.2.1 he (ih hrest hentries)
    · next heq =>
      obtain ⟨rfl, rfl⟩ := List.cons.inj heq
      exact ih hrest h

/-- A literal that passes its check has no key twice. -/
theorem dictLiteral_go {entries rest : List (String × Expr)} {seen : List String} {e : Expr}
    (h : dictLiteral.go entries seen rest = .ok e) :
    e = .dict entries ∧ (rest.map Prod.fst).Nodup ∧ ∀ k ∈ rest.map Prod.fst, k ∉ seen := by
  induction rest generalizing seen with
  | nil =>
    cases h
    exact ⟨rfl, .nil, fun _ hk => nomatch hk⟩
  | cons p rest ih =>
    obtain ⟨k, v⟩ := p
    simp only [dictLiteral.go] at h
    split at h
    · cases h
    · next hk =>
      -- a key counts as seen for all entries after it
      obtain ⟨he, hnodup, hseen⟩ := ih h
      have hk : k ∉ seen := by simpa using hk
      refine ⟨he, List.nodup_cons.2 ⟨fun hm => hseen k hm (List.mem_cons_self ..), hnodup⟩, ?_⟩
      intro k' hk'
      rcases List.mem_cons.1 hk' with rfl | hk'
      · exact hk
      · exact fun hm => hseen k' hk' (List.mem_cons_of_mem _ hm)

/-- A literal that passes its check is as the parser makes sure. -/
theorem dictLiteral_parsed {entries : List (String × Expr)} {e : Expr}
    (hes : BoundParsed entries) (h : dictLiteral entries = .ok e) :
    Parsed false e := by
  obtain ⟨rfl, hnodup, -⟩ := dictLiteral_go h
  exact ⟨⟨⟨⟨hes.1, hnodup, hes.2.2⟩, trivial⟩, Expr.everyEntry_iff.2 hes.2.1⟩, fun _ => rfl⟩

/-- What may stand anywhere may stand where definitions may. -/
theorem Parsed.anywhere {top : Bool} {e : Expr} (h : Parsed false e) : Parsed top e :=
  ⟨h.1, fun _ => h.2 rfl⟩

section Forms

variable {n : Nat} {top : Bool} {head : SExpr} {args : List SExpr} {e : Expr}

/-- A definition gives what the parser makes sure of, if its parts do. -/
theorem define_parsed (hn : ParseBelow n) (hargs : Below n args)
    (hk : head.keyword? = some .define) (h : toExpr top (.list (head :: args)) = .ok e) :
    Parsed top e := by
  unfold toExpr at h
  simp only [hk] at h
  split at h
  next htop =>
    split at h
    next x v =>
      obtain ⟨name, hname, h⟩ := exists_of_bind_eq_ok h
      obtain ⟨e, he, h⟩ := exists_of_bind_eq_ok h
      cases h
      obtain ⟨hp, hd⟩ := hn.of_mem hargs (by simp) he
      have hne := binder_ne (hargs x (by simp)).2 hname
      exact ⟨⟨⟨⟨hne, hd rfl⟩, trivial⟩, hp⟩, fun ht => nomatch htop.symm.trans ht⟩
    · cases h
  · cases h

/-- A quotation gives what the parser makes sure of. -/
theorem quote_parsed (hk : head.keyword? = some .quote)
    (h : toExpr top (.list (head :: args)) = .ok e) : Parsed top e := by
  unfold toExpr at h
  simp only [hk] at h
  split at h
  next d =>
    cases h
    have hd := toDatum_readable d
    exact ⟨⟨not_isDict_of_readable hd, hd⟩, fun _ => rfl⟩
  · cases h

/-- A conditional gives what the parser makes sure of, if its parts do. -/
theorem ifElse_parsed (hn : ParseBelow n) (hargs : Below n args)
    (hk : head.keyword? = some .ifElse) (h : toExpr top (.list (head :: args)) = .ok e) :
    Parsed top e := by
  unfold toExpr at h
  simp only [hk] at h
  split at h
  · obtain ⟨t, ht, h⟩ := exists_of_bind_eq_ok h
    obtain ⟨c, hc, h⟩ := exists_of_bind_eq_ok h
    obtain ⟨a, ha, h⟩ := exists_of_bind_eq_ok h
    cases h
    obtain ⟨hpt, hdt⟩ := hn.of_mem hargs (by simp) ht
    obtain ⟨hpc, hdc⟩ := hn.of_mem hargs (by simp) hc
    obtain ⟨hpa, hda⟩ := hn.of_mem hargs (by simp) ha
    exact ⟨⟨⟨⟨hdt rfl, hdc rfl, hda rfl⟩, trivial⟩, hpt, hpc, hpa⟩, fun _ => rfl⟩
  · cases h

/-- A lambda gives what the parser makes sure of, if its body does. -/
theorem lambda_parsed (hn : ParseBelow n) (hargs : Below n args)
    (hk : head.keyword? = some .lambda) (h : toExpr top (.list (head :: args)) = .ok e) :
    Parsed top e := by
  unfold toExpr at h
  simp only [hk] at h
  split at h
  · obtain ⟨-, hbody⟩ := List.forall_mem_cons.1 hargs
    obtain ⟨params, -, h⟩ := exists_of_bind_eq_ok h
    split at h
    · cases h
    obtain ⟨-, -, h⟩ := exists_of_bind_eq_ok h
    obtain ⟨es, hes, h⟩ := exists_of_bind_eq_ok h
    -- what the names are has been checked by the constructor itself
    exact (lambda?_parsed (toExprs_parsed hn hbody hes).1 h).anywhere
  · cases h

/-- A `let` gives what the parser makes sure of, as the call of a lambda. -/
theorem letIn_parsed (hn : ParseBelow n) (hargs : Below n args)
    (hk : head.keyword? = some .letIn) (h : toExpr top (.list (head :: args)) = .ok e) :
    Parsed top e := by
  unfold toExpr at h
  simp only [hk] at h
  split at h
  · obtain ⟨⟨hsize, hbs⟩, hbody⟩ := List.forall_mem_cons.1 hargs
    obtain ⟨bound, hbound, h⟩ := exists_of_bind_eq_ok h
    split at h
    · cases h
    obtain ⟨-, -, h⟩ := exists_of_bind_eq_ok h
    obtain ⟨es, hes, h⟩ := exists_of_bind_eq_ok h
    obtain ⟨f, hf, h⟩ := exists_of_bind_eq_ok h
    cases h
    -- the form stands for a lambda that is applied to what its names are bound to
    obtain ⟨hp, hd⟩ := lambda?_parsed (toExprs_parsed hn hbody hes).1 hf
    obtain ⟨-, hps, hds⟩ := toBindings_parsed hn (Below.items hsize hbs) hbound
    exact ⟨⟨⟨⟨hd rfl, hds⟩, trivial⟩, hp, hps⟩, fun _ => rfl⟩
  · cases h

/-- A literal gives what the parser makes sure of, if its entries do. -/
theorem dict_parsed (hn : ParseBelow n) (hargs : Below n args)
    (hk : head.keyword? = some .dict) (h : toExpr top (.list (head :: args)) = .ok e) :
    Parsed top e := by
  unfold toExpr at h
  simp only [hk] at h
  split at h
  · obtain ⟨entries, hentries, h⟩ := exists_of_bind_eq_ok h
    exact (dictLiteral_parsed (toEntries_parsed hn hargs hentries) h).anywhere
  · split at h
    · cases h
    · obtain ⟨es, hes, h⟩ := exists_of_bind_eq_ok h
      cases h
      obtain ⟨hp, hd⟩ := toExprs_parsed hn hargs hes
      exact ⟨⟨⟨⟨rfl, hd rfl⟩, trivial⟩, ⟨trivial, trivial⟩, hp⟩, fun _ => rfl⟩

/-- An application gives what the parser makes sure of, if its parts do. -/
theorem app_parsed (hn : ParseBelow n) (hhead : sizeOf head < n ∧ head.Named)
    (hargs : Below n args) (hk : head.keyword? = none)
    (h : toExpr top (.list (head :: args)) = .ok e) : Parsed top e := by
  unfold toExpr at h
  simp only [hk] at h
  obtain ⟨f, hf, h⟩ := exists_of_bind_eq_ok h
  obtain ⟨es, hes, h⟩ := exists_of_bind_eq_ok h
  cases h
  obtain ⟨hpf, hdf⟩ := hn head hhead.1 hhead.2 false f hf
  obtain ⟨hp, hd⟩ := toExprs_parsed hn hargs hes
  exact ⟨⟨⟨⟨hdf rfl, hd rfl⟩, trivial⟩, hpf, hp⟩, fun _ => rfl⟩

end Forms

/-- What a form gives is as the parser makes sure, if that holds of all smaller forms. -/
theorem toExpr_parsed {x : SExpr} (hx : x.Named) (hn : ParseBelow (sizeOf x)) {top : Bool}
    {e : Expr} (h : x.toExpr top = .ok e) : Parsed top e := by
  cases x with
  | number | boolean | string =>
    cases h
    exact ⟨⟨trivial, trivial⟩, fun _ => rfl⟩
  | symbol x =>
    simp only [toExpr] at h
    split at h <;> cases h
    · exact ⟨⟨trivial, trivial⟩, fun _ => rfl⟩
    · exact ⟨⟨hx, trivial⟩, fun _ => rfl⟩
  | dotted => cases h
  | list xs =>
    cases xs with
    | nil => cases h
    | cons head args =>
      have hhead : sizeOf head < sizeOf (SExpr.list (head :: args)) := by
        simp only [SExpr.list.sizeOf_spec, List.cons.sizeOf_spec]
        omega
      have htail : sizeOf (SExpr.list args) < sizeOf (SExpr.list (head :: args)) := by
        simp only [SExpr.list.sizeOf_spec, List.cons.sizeOf_spec]
        omega
      have hargs : Below (sizeOf (SExpr.list (head :: args))) args :=
        Below.items htail hx.2
      cases hk : head.keyword? with
      | none => exact app_parsed hn ⟨hhead, hx.1⟩ hargs hk h
      | some k =>
        cases k with
        | quote => exact quote_parsed hk h
        | ifElse => exact ifElse_parsed hn hargs hk h
        | lambda => exact lambda_parsed hn hargs hk h
        | dict => exact dict_parsed hn hargs hk h
        | letIn => exact letIn_parsed hn hargs hk h
        | define => exact define_parsed hn hargs hk h

/-- **Forms of every size give what the parser makes sure of**, by induction on the size. -/
theorem parseBelow (n : Nat) : ParseBelow n := by
  induction n with
  | zero => exact fun x hx => absurd hx (Nat.not_lt_zero _)
  | succ n ih =>
    intro x hsize hx top e h
    -- a form gets its parts parsed, which are smaller
    refine toExpr_parsed hx (fun y hy => ih y ?_) h
    omega

end SExpr

/-- **A parsed program is well formed and readable.** -/
theorem parseProgram_sound {s : String} {p : List Expr} (h : parseProgram s = .ok p) :
    Expr.EveryAll Expr.NodeSound p := by
  obtain ⟨forms, hforms, h⟩ := SExpr.exists_of_bind_eq_ok h
  have hnamed := SExpr.readText_named hforms
  have hunwrapped : SExpr.NamedAll (unwrapProgram forms) := by
    unfold unwrapProgram
    split
    · exact hnamed.1.2
    · exact hnamed
  have hp : SExpr.toExprs true (unwrapProgram forms) = .ok p := by
    cases hes : SExpr.toExprs true (unwrapProgram forms) with
    | error fault =>
      rw [hes] at h
      cases h
    | ok es =>
      rw [hes] at h
      cases h
      rfl
  have hbelow := SExpr.Below.items (Nat.lt_succ_self _) hunwrapped
  exact (SExpr.toExprs_parsed (SExpr.parseBelow _) hbelow hp).1

end Lambdict
