import Lambdict.Proofs.Printing.Form
import Lambdict.Proofs.Reading.Grammar

/-!
# Programs that can be written

Every program that was read can be written so that it is read again, as far as its nodes go
(`Parses.written`).  Its symbols were spelled by tokens, and the parser has told its forms apart.
What the desugarer makes of it can be written too (`Expr.Every.desugar_printable`).

Two things may still stand in the way.  One is a lone dot.  The reader takes a dot for a symbol
after a quote mark, so `'.` is read as the list of `quote` and the dot wherever it stands, also
where a list of names or an entry is due, and in quoted data.  The printer has no quote mark there.
The other is a double whose text denotes another number or none.  *Plain* expressions have no dot in
such a place and no such double (`Expr.NodePlain`).
-/

namespace Lambdict

/-! ## Forms that were read -/

/-- Items that a list can have been read with: none of them is the lone dot, but for the list that a
quote mark before a dot stands for. -/
def DotFree (xs : List SExpr) : Prop :=
  (∀ x ∈ xs, x ≠ .symbol ".") ∨ xs = [.symbol "quote", .symbol "."]

namespace SExpr

mutual

/-- **What can have been read**: numbers as numerals denote them, symbols that are names, and dots
only where the reader admits them. -/
def Written : SExpr → Prop
  | .number n => n.Written
  | .boolean _ | .string _ => True
  | .symbol x => IsName x
  | .list xs => WrittenAll xs ∧ DotFree xs
  | .dotted xs t => WrittenAll xs ∧ t.Written

/-- The same of several S-expressions. -/
def WrittenAll : List SExpr → Prop
  | [] => True
  | x :: xs => x.Written ∧ WrittenAll xs

end

theorem writtenAll_iff {xs : List SExpr} : WrittenAll xs ↔ ∀ x ∈ xs, x.Written := by
  induction xs with
  | nil => simp [WrittenAll]
  | cons x xs ih => simp [WrittenAll, ih]

end SExpr

open SExpr (Written WrittenAll)

/-- Only a dot spells the dot. -/
theorem Spells.ne_dot {ts : List Token} {x : SExpr} (h : Spells ts x) (hdot : ts ≠ [.dot]) :
    x ≠ .symbol "." := by
  rintro rfl
  cases h with
  | symbol h =>
    refine hdot ?_
    rw [← SExpr.eq_of_ofSymbol h]
    rfl

mutual

/-- What spelled tokens spell is written so that it is read again. -/
theorem Spells.written : ∀ {ts : List Token} {x : SExpr}, Spells ts x → (∀ t ∈ ts, t.Spelled) →
    x.Written
  | _, _, @Spells.symbol text x h, ht => by
    have htext : SymbolText text.toList := ht (.symbol text) (by simp)
    rcases SExpr.not_list_of_ofSymbol h with ⟨n, rfl⟩ | ⟨b, rfl⟩ | rfl
    · exact SExpr.written_of_ofSymbol h
    · trivial
    · exact ⟨htext, h⟩
  | _, _, .string _, _ => trivial
  | _, _, .quote (x := x) h, ht => by
    have hx := h.written fun t hmem => ht t (by simp [hmem])
    refine ⟨⟨isName_keyword (by simp), hx, trivial⟩, ?_⟩
    by_cases hdot : x = .symbol "."
    · exact .inr (by rw [hdot])
    · exact .inl (by simp [hdot])
  | _, _, .list _ _ h, ht => by
    obtain ⟨hxs, hdot⟩ := h.written fun t hmem => ht t (by simp [hmem])
    exact ⟨hxs, .inl hdot⟩
  | _, _, .dotted _ _ h _ hx, ht =>
    ⟨(h.written fun t hmem => ht t (by simp [hmem])).1,
      hx.written fun t hmem => ht t (by simp [hmem])⟩

theorem SpellsItems.written : ∀ {ts : List Token} {xs : List SExpr}, SpellsItems ts xs →
    (∀ t ∈ ts, t.Spelled) → WrittenAll xs ∧ ∀ x ∈ xs, x ≠ .symbol "."
  | _, _, .nil, _ => ⟨trivial, fun _ hx => nomatch hx⟩
  | _, _, .cons h hdot hs, ht => by
    have hx := h.written fun t hmem => ht t (by simp [hmem])
    obtain ⟨hxs, hdots⟩ := hs.written fun t hmem => ht t (by simp [hmem])
    exact ⟨⟨hx, hxs⟩, List.forall_mem_cons.2 ⟨h.ne_dot hdot, hdots⟩⟩

end

theorem SpellsAll.written {ts : List Token} {xs : List SExpr} (h : SpellsAll ts xs)
    (ht : ∀ t ∈ ts, t.Spelled) : WrittenAll xs := by
  induction h with
  | nil => trivial
  | cons hx _ ih =>
    exact ⟨hx.written fun t hmem => ht t (by simp [hmem]), ih fun t hmem => ht t (by simp [hmem])⟩

/-- **All forms of a text that can be read are as the reader makes sure.** -/
theorem readText_written {s : String} {xs : List SExpr} (h : SExpr.readText s = .ok xs) :
    WrittenAll xs :=
  (readText_eq_ok_iff.1 h).2.written (lex_spelled s)

mutual

/-- A form that is written well is data that is. -/
theorem SExpr.Written.toDatum : ∀ {x : SExpr}, x.Written → x.toDatum.Written
  | .number _, h | .symbol _, h => h
  | .boolean _, _ | .string _, _ => trivial
  | .list _, h =>
    have hempty : Value.empty.Written := trivial
    SExpr.WrittenAll.toChain hempty h.1
  | .dotted _ _, h => SExpr.WrittenAll.toChain (SExpr.Written.toDatum h.2) h.1

theorem SExpr.WrittenAll.toChain {tail : Value} (ht : tail.Written) :
    ∀ {xs : List SExpr}, WrittenAll xs → (SExpr.toChain tail xs).Written
  | [], _ => ht
  | _ :: _, h => ⟨rfl, h.1.toDatum, SExpr.WrittenAll.toChain ht h.2⟩

end

/-! ## Programs that were read -/

/-- What is parsed as a variable or a primitive is a symbol. -/
theorem Parses.symbol_of_isSymbol {top : Bool} {x : SExpr} {f : Expr} (h : Parses top x f)
    (hf : f.isSymbol = true) : ∃ y, x = .symbol y := by
  cases h with
  | prim | var => exact ⟨_, rfl⟩
  | _ => cases hf

/-- What is written as an entry was read as one. -/
theorem Parses.isEntry {x : SExpr} {e : Expr} (h : Parses false x e) (he : e.isEntry = true) :
    x.isEntry = true := by
  cases h with
  | number | boolean | string | prim | var => cases he
  | quote d => rfl
  | ifElse => exact absurd (Expr.isEntry_cons_iff.1 he).2 (by simp)
  | lambda _ _ hbody hall =>
    have hlen := (Expr.isEntry_cons_iff.1 he).2
    rw [List.length_cons, Expr.length_formAll, hall.length] at hlen
    exact absurd (List.eq_nil_of_length_eq_zero (by omega)) hbody
  | letIn => exact nomatch (Expr.isEntry_cons_iff.1 he).1
  | dict hentries _ =>
    have hlen := (Expr.isEntry_cons_iff.1 he).2
    rw [Expr.length_formEntries, hentries.length] at hlen
    exact Expr.isEntry_cons_iff.2 ⟨⟨_, rfl⟩, hlen⟩
  | dictCall _ _ hall =>
    have hlen := (Expr.isEntry_cons_iff.1 he).2
    rw [Expr.length_formAll, hall.length] at hlen
    exact Expr.isEntry_cons_iff.2 ⟨⟨_, rfl⟩, hlen⟩
  | app _ hf hall =>
    obtain ⟨⟨y, hy⟩, hlen⟩ := Expr.isEntry_cons_iff.1 he
    rw [Expr.length_formAll, hall.length] at hlen
    exact Expr.isEntry_cons_iff.2 ⟨hf.symbol_of_isSymbol (Expr.isSymbol_of_form hy), hlen⟩

theorem ParsesAll.isEntry : ∀ {xs : List SExpr} {es : List Expr}, ParsesAll false xs es →
    (∀ x ∈ xs, x.isEntry = false) → ∀ e ∈ es, e.isEntry = false
  | _, _, .nil, _ => fun _ he => nomatch he
  | _, _, .cons (e := e) h hs, hxs => by
    obtain ⟨hx, hrest⟩ := List.forall_mem_cons.1 hxs
    refine List.forall_mem_cons.2 ⟨?_, hs.isEntry hrest⟩
    rw [← Bool.not_eq_true] at hx ⊢
    exact fun he => hx (h.isEntry he)

/-- Only two items can have a dot among them. -/
theorem DotFree.ne_dot {xs : List SExpr} (h : DotFree xs) (hlen : xs.length ≠ 2) :
    ∀ x ∈ xs, x ≠ .symbol "." := by
  rcases h with h | rfl
  · exact h
  · exact absurd rfl hlen

theorem DotFree.head_ne_dot {x : String} {xs : List SExpr} (h : DotFree (.symbol x :: xs)) :
    x ≠ "." := by
  rintro rfl
  rcases h with h | h
  · exact h _ (List.mem_cons_self ..) rfl
  · simp at h

open Lambdict.Expr (Every EveryAll EveryEntry NodeWritten)

mutual

/-- **What was read can be written so that it is read again.** -/
theorem Parses.written : ∀ {top : Bool} {x : SExpr} {e : Expr}, Parses top x e → x.Written →
    e.Every NodeWritten
  | _, _, _, .number _, hx => hx
  | _, _, _, .boolean _, _ | _, _, _, .string _, _ | _, _, _, .prim _, _ => trivial
  | _, _, _, .var h, hx => ⟨hx, h⟩
  | _, _, _, .define h hy, hx =>
    have hdot := hx.2.ne_dot (by simp) (.symbol _) (by simp)
    ⟨⟨⟨hx.1.2.1, h⟩, fun heq => hdot (congrArg _ heq)⟩, hy.written hx.1.2.2.1⟩
  | _, _, _, .quote _, hx => hx.1.2.1.toDatum
  | _, _, _, .ifElse ht hc ha, hx =>
    ⟨trivial, ht.written hx.1.2.1, hc.written hx.1.2.2.1, ha.written hx.1.2.2.2.1⟩
  | _, _, _, .lambda hp _ _ hb, hx => by
    obtain ⟨-, hps, hbody⟩ := hx.1
    refine ⟨fun p hmem => ⟨?_, hp p hmem⟩, hb.written hbody⟩
    exact SExpr.writtenAll_iff.1 hps.1 (.symbol p) (List.mem_map_of_mem hmem)
  | _, _, _, .letIn hb _ _ hbody, hx => by
    obtain ⟨hps, hvs⟩ := hb.written hx.1.2.1.1
    exact ⟨⟨by simp, by simp⟩, ⟨hps, hbody.written hx.1.2.2⟩, hvs⟩
  | _, _, _, .dict hentries _, hx => hentries.written hx.1.2
  | _, _, _, .dictCall _ hshape hall, hx =>
    ⟨⟨by simp, fun _ => hall.isEntry hshape⟩, trivial, hall.written hx.1.2⟩
  | _, _, _, .app hk hf hall, hx => by
    refine ⟨⟨?_, ?_⟩, hf.written hx.1.1, hall.written hx.1.2⟩
    · rintro y rfl
      cases hf
      exact hk
    · -- the name of the primitive `dict` is a keyword too
      rintro rfl
      cases hf with
      | prim h =>
        rw [← Primitive.name_of_ofName? h] at hk
        cases hk

/-- **What a text denotes is written well.** -/
theorem ParsesAll.written : ∀ {top : Bool} {xs : List SExpr} {es : List Expr},
    ParsesAll top xs es → WrittenAll xs → EveryAll NodeWritten es
  | _, _, _, .nil, _ => trivial
  | _, _, _, .cons h hs, hxs => ⟨h.written hxs.1, hs.written hxs.2⟩

theorem ParsesBindings.written : ∀ {xs : List SExpr} {ps : List String} {vs : List Expr},
    ParsesBindings xs ps vs → WrittenAll xs → (∀ p ∈ ps, IsBindable p) ∧ EveryAll NodeWritten vs
  | _, _, _, .nil, _ => ⟨by simp, trivial⟩
  | _, _, _, .cons hx h hs, hxs => by
    obtain ⟨hps, hvs⟩ := hs.written hxs.2
    exact ⟨List.forall_mem_cons.2 ⟨⟨hxs.1.1.1, hx⟩, hps⟩, h.written hxs.1.1.2.1, hvs⟩

theorem ParsesEntries.written : ∀ {xs : List SExpr} {entries : List (String × Expr)},
    ParsesEntries xs entries → WrittenAll xs → (Expr.dict entries).Every NodeWritten
  | _, _, .nil, _ => ⟨fun _ hk => (nomatch hk), trivial⟩
  | _, _, .cons h hs, hxs => by
    obtain ⟨hkeys, hvalues⟩ := hs.written hxs.2
    refine ⟨List.forall_mem_cons.2 ⟨⟨hxs.1.1.1, hxs.1.2.head_ne_dot⟩, hkeys⟩, ?_⟩
    exact ⟨h.written hxs.1.1.2.1, hvalues⟩

end

/-! ## Plain expressions -/

/-- **A number that is printed as itself**: an integer, or a finite double that is no integer.  A
double that is an integer is printed as that integer, and the names of the others are symbols. -/
def Number.Plain : Number → Prop
  | .int _ => True
  | .float (.finite _ u) => u % Double.scale ≠ 0
  | .float _ => False

/-- All numbers of a datum are printed as themselves, and no symbol `.` occurs in it. -/
def Value.Plain : Value → Prop
  | .number n => n.Plain
  | .symbol x => x ≠ "."
  | .pair _ h t => h.Plain ∧ t.Plain
  | _ => True

namespace Expr

/-- **Plain**: numbers are printed as themselves, and there is no dot as a variable, as a parameter
or inside quoted data, as far as the outermost node goes.  The dot alone may be quoted. -/
def NodePlain : Expr → Prop
  | .number n => n.Plain
  | .var x => x ≠ "."
  | .lambda ps _ => "." ∉ ps
  | .quote d => d = .symbol "." ∨ d.Plain
  | _ => True

/-- What is asked of a node that is to be printed and read again. -/
def NodePrintable (e : Expr) : Prop := e.NodeWritten ∧ e.NodePlain

/-! ## What the desugarer makes of them -/

theorem length_desugarAll (strategy : Strategy) (es : List Expr) :
    (desugarAll strategy es).length = es.length := by
  induction es with
  | nil => rfl
  | cons e es ih => simp [desugarAll, ih]

theorem length_desugarEntries (strategy : Strategy) (es : List (String × Expr)) :
    (desugarEntries strategy es).length = es.length := by
  induction es with
  | nil => rfl
  | cons p es ih => simp [desugarEntries, ih]

/-- The desugarer makes no names, and keeps those that are there. -/
theorem eq_of_isSymbol_desugar {strategy : Strategy} {f : Expr}
    (h : (f.desugar strategy).isSymbol = true) :
    f.isSymbol = true ∧ f.desugar strategy = f := by
  cases f with
  | var | prim => exact ⟨rfl, rfl⟩
  | app f es =>
    obtain ⟨f', es', heq⟩ := exists_desugar_app strategy f es
    rw [heq] at h
    cases h
  | _ => cases h

/-- What counts as a symbol is written as one. -/
theorem form_of_isSymbol {f : Expr} (h : f.isSymbol = true) : ∃ x, f.form = .symbol x := by
  cases f with
  | var | prim => exact ⟨_, rfl⟩
  | _ => cases h

/-- What would be taken for an entry after desugaring would have been before. -/
theorem isEntry_of_desugar {strategy : Strategy} {e : Expr}
    (h : (e.desugar strategy).isEntry = true) : e.isEntry = true := by
  cases e with
  | number | boolean | string | var | prim | foreign => cases h
  | cond => exact absurd (isEntry_cons_iff.1 h).2 (by simp)
  | define => exact absurd (isEntry_cons_iff.1 h).2 (by simp)
  | quote => rfl
  | lambda ps b =>
    have hlen := (isEntry_cons_iff.1 h).2
    rw [List.length_cons, length_formAll, length_desugarAll, ← length_formAll] at hlen
    exact isEntry_cons_iff.2 ⟨⟨_, rfl⟩, hlen⟩
  | dict es =>
    have hlen := (isEntry_cons_iff.1 h).2
    rw [length_formAll, length_desugarEntries, ← length_formEntries] at hlen
    exact isEntry_cons_iff.2 ⟨⟨_, rfl⟩, hlen⟩
  | app f es =>
    rcases app_cases f es with ⟨ds, key, rfl, rfl⟩ | hne
    · -- the operator is a call or a lambda, and no name
      cases strategy <;> exact nomatch (isEntry_cons_iff.1 h).1
    · rw [desugar_app strategy hne] at h
      obtain ⟨⟨x, hx⟩, hlen⟩ := isEntry_cons_iff.1 h
      rw [length_formAll, length_desugarAll, ← length_formAll] at hlen
      have hf := (eq_of_isSymbol_desugar (isSymbol_of_form hx)).1
      exact isEntry_cons_iff.2 ⟨form_of_isSymbol hf, hlen⟩

/-- What has not the shape of an entry has not when it is desugared. -/
theorem isEntry_desugarAll {strategy : Strategy} {es : List Expr}
    (h : ∀ e ∈ es, e.isEntry = false) : ∀ e ∈ desugarAll strategy es, e.isEntry = false := by
  induction es with
  | nil => exact h
  | cons e es ih =>
    obtain ⟨he, hes⟩ := List.forall_mem_cons.1 h
    refine List.forall_mem_cons.2 ⟨?_, ih hes⟩
    rw [← Bool.not_eq_true] at he ⊢
    exact fun hd => he (isEntry_of_desugar hd)

theorem isEntry_desugarEntries (strategy : Strategy) (es : List (String × Expr)) :
    ∀ e ∈ desugarEntries strategy es, e.isEntry = false := by
  induction es with
  | nil => exact fun _ he => nomatch he
  | cons p es ih => exact List.forall_mem_cons.2 ⟨rfl, ih⟩

/-- The names in a scanner can be bound, and begin nothing special. -/
theorem isBindable_scanner {x : String} (h : x ∈ ["self", "entries", "box"]) :
    IsBindable x ∧ Keyword.ofName? x = none ∧ x ≠ "." := by
  simp only [List.mem_cons, List.not_mem_nil, or_false] at h
  rcases h with rfl | rfl | rfl
  all_goals exact ⟨⟨isName_keyword (by simp), rfl⟩, rfl, by decide⟩

/-- **Expansion keeps what can be printed**: the desugarer makes no names, and operands of `dict`
that would be taken for entries were so before. -/
theorem keeps_printable (strategy : Strategy) : Desugar.Keeps strategy NodePrintable where
  prim _ := ⟨trivial, trivial⟩
  cond _ := ⟨trivial, trivial⟩
  lambda h := h
  app := by
    rintro f es ⟨⟨hname, hentry⟩, -⟩
    refine ⟨⟨fun x hx => ?_, fun hp => ?_⟩, trivial⟩
    · have hsymbol : (f.desugar strategy).isSymbol = true := by rw [hx]; rfl
      exact hname x ((eq_of_isSymbol_desugar hsymbol).2.symm.trans hx)
    · have hsymbol : (f.desugar strategy).isSymbol = true := by rw [hp]; rfl
      have heq := (eq_of_isSymbol_desugar hsymbol).2
      exact isEntry_desugarAll (hentry (heq.symm.trans hp))
  define h := h
  dict _ := ⟨⟨by simp, fun _ => isEntry_desugarEntries strategy _⟩, trivial⟩
  pairs := by
    rintro es ⟨hkeys, -⟩ r hr
    obtain ⟨hname, hdot⟩ := hkeys r.1 (List.mem_map_of_mem hr)
    exact ⟨⟨hname, .inr hdot⟩, ⟨by simp, by simp⟩, trivial⟩
  scanner := by
    have hself := isBindable_scanner (x := "self") (by simp)
    have hentries := isBindable_scanner (x := "entries") (by simp)
    have hbox := isBindable_scanner (x := "box") (by simp)
    simp [Desugar.scanner, Desugar.call, Every, EveryAll, NodePrintable, NodeWritten, NodePlain,
      hself, hentries, hbox]
  search _ _ :=
    ⟨⟨⟨by simp [Desugar.scanner], by simp [Desugar.scanner]⟩, trivial⟩,
      ⟨⟨by simp, by simp⟩, trivial⟩, ⟨by simp, by simp⟩, trivial⟩

/-- **What can be printed can be printed when it is desugared.** -/
theorem Every.desugar_printable {strategy : Strategy} {e : Expr} (h : e.Every NodePrintable) :
    (e.desugar strategy).Every NodePrintable :=
  h.desugar_of (keeps_printable strategy)

end Expr

end Lambdict
