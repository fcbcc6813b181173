import Lambdict.Proofs.Printing.Text

/-!
# Printing and reading programs

A program that was read is printed, and the text is read as the same program again; what the
program desugars to is printed and read too, with the empty literal for a call of `dict` without
operands (`renderProgram_reads_back`).  This holds of programs of plain lines that are not taken for
a wrapped program.

It does not hold of all programs without doubles and dots in quoted data.  The quote mark before a
dot is not always a quotation: in `(dict '.)` it stands for an entry with key `quote`, whose value
is the variable `.`, and the printer writes this entry so that it cannot be read
(`renderProgram_dot_entry`).
-/

namespace Lambdict

open Lambdict.Expr (Every EveryAll EveryEntry NodeWritten NodePlain NodePrintable NodeSound
  NodeWellFormed desugarAll emptyDictsAll formAll)

/-- **A line of a program that can be printed**: plain, or the lone dot, which is a symbol where no
list is open. -/
def Expr.PlainLine (e : Expr) : Prop := e = .var "." ∨ e.Every NodePlain

/-! ## What can be read can be rendered -/

theorem Value.Written.writable : ∀ {d : Value}, d.Written → d.writable = true
  | .number _, h => Number.Written.writable h
  | .boolean _, _ | .string _, _ | .symbol _, _ | .empty, _ => rfl
  | .pair _ h t, hw => by
    rw [Value.writable, hw.2.1.writable, hw.2.2.writable]
    rfl

namespace Expr

mutual

theorem Every.writable : ∀ {e : Expr}, e.Every NodeWritten → e.writable = true
  | .number _, h => Number.Written.writable h
  | .boolean _, _ | .string _, _ | .var _, _ | .prim _, _ => rfl
  | .quote d, h => Value.Written.writable (d := d) h
  | .cond t c a, h => by
    rw [Expr.writable, h.2.1.writable, h.2.2.1.writable, h.2.2.2.writable]
    rfl
  | .lambda _ _, h => EveryAll.writable h.2
  | .app f es, h => by
    rw [Expr.writable, h.2.1.writable, EveryAll.writable h.2.2]
    rfl
  | .define _ _, h => h.2.writable
  | .dict _, h => EveryEntry.writable h.2
  | .foreign _, h => h.elim

theorem EveryAll.writable : ∀ {es : List Expr}, EveryAll NodeWritten es → writableAll es = true
  | [], _ => rfl
  | _ :: _, h => by
    rw [writableAll, h.1.writable, EveryAll.writable h.2]
    rfl

theorem EveryEntry.writable : ∀ {es : List (String × Expr)}, EveryEntry NodeWritten es →
    writableEntries es = true
  | [], _ => rfl
  | _ :: _, h => by
    rw [writableEntries, h.1.writable, EveryEntry.writable h.2]
    rfl

end

end Expr

theorem renderProgram_of_written {p : List Expr} (h : EveryAll NodeWritten p) :
    renderProgram p = .ok (programText p) := by
  rw [renderProgram, guardText, h.writable]
  rfl

/-! ## Lines are read one by one -/

/-- A text whose tokens spell one S-expression is a line of a program. -/
theorem Expr.PlainLine.spells {e : Expr} (h : e.PlainLine) (hw : e.Every NodeWritten) :
    ∃ ts, Lexes e.text.toList ts ∧ Spells ts e.form := by
  rcases h with rfl | hp
  · exact ⟨[.symbol "."], .symbol (by decide), .symbol rfl⟩
  · obtain ⟨ts, hlex, hspells, -⟩ := (hw.and hp).denotes_text
    exact ⟨ts, hlex, hspells⟩

theorem spellsAll_programText {p : List Expr}
    (h : ∀ e ∈ p, ∃ ts, Lexes e.text.toList ts ∧ Spells ts e.form) :
    ∃ ts, Lexes (programText p).toList ts ∧ SpellsAll ts (formAll p) := by
  induction p with
  | nil => exact ⟨[], .nil, .nil⟩
  | cons e p ih =>
    obtain ⟨⟨ts, hlex, hspells⟩, hp⟩ := List.forall_mem_cons.1 h
    obtain ⟨us, hlexs, hspellss⟩ := ih hp
    refine ⟨ts ++ us, ?_, .cons hspells hspellss⟩
    cases p with
    | nil =>
      cases hspellss
      simpa [programText] using hlex
    | cons d p =>
      have htext : (programText (e :: d :: p)).toList =
          e.text.toList ++ '\n' :: (programText (d :: p)).toList := by
        simp [programText, String.intercalate_cons_cons]
      rw [htext]
      exact hlex.append hlexs.newline (.cons (by decide) _)

/-- **The text of a program is read as the forms of its lines.** -/
theorem readText_programText {p : List Expr} (hw : EveryAll NodeWritten p)
    (hp : ∀ e ∈ p, e.PlainLine) : SExpr.readText (programText p) = .ok (formAll p) := by
  obtain ⟨ts, hlex, hspells⟩ := spellsAll_programText fun e he =>
    (hp e he).spells (Expr.everyAll_iff.1 hw e he)
  have htokens : lex (programText p) = (ts, none) := by
    have h := hlex 0 [] .nil
    rw [List.append_nil] at h
    rw [lex, h]
    simp [lexFrom, Mode.finish]
  rw [readText_eq_ok_iff, htokens]
  exact ⟨rfl, hspells⟩

/-! ## The wrapper -/

/-- What is written as a wrapped program is an application of its name. -/
theorem Expr.eq_app_of_form {e : Expr} {xs : List SExpr}
    (h : e.form = .list (.symbol "L32" :: xs)) : ∃ es, e = .app (.var "L32") es := by
  cases e with
  | app f es =>
    obtain ⟨hf, -⟩ := List.cons.inj (SExpr.list.inj h)
    cases f with
    | var x =>
      cases hf
      exact ⟨es, rfl⟩
    | prim p => exact absurd (SExpr.symbol.inj hf) (by cases p <;> decide)
    | _ => cases hf
  | _ => simp [Expr.form] at h

theorem unwrapProgram_formAll {p : List Expr} (h : ∀ es, p ≠ [.app (.var "L32") es]) :
    unwrapProgram (formAll p) = formAll p := by
  unfold unwrapProgram
  split
  · next xs heq =>
    match p with
    | [] => cases heq
    | [e] =>
      obtain ⟨es, rfl⟩ := Expr.eq_app_of_form (List.cons.inj heq).1
      exact absurd rfl (h es)
    | _ :: _ :: _ => cases (List.cons.inj heq).2
  · rfl

/-- **A program of plain lines is printed and read again**, with empty literals for calls of `dict`
without operands. -/
theorem parseProgram_programText {p : List Expr} (hf : EveryAll NodeWellFormed p)
    (hw : EveryAll NodeWritten p) (hp : ∀ e ∈ p, e.PlainLine)
    (hwrap : ∀ es, p ≠ [.app (.var "L32") es]) :
    ∃ t, renderProgram p = .ok t ∧ parseProgram t = .ok (emptyDictsAll p) := by
  refine ⟨_, renderProgram_of_written hw, ?_⟩
  rw [parseProgram_eq_ok_iff]
  refine ⟨_, readText_programText hw hp, ?_⟩
  rw [unwrapProgram_formAll hwrap]
  exact EveryAll.parses_form hf hw (by simp)

/-! ## Programs that were read -/

mutual

/-- No call of `dict` without operands is read. -/
theorem Parses.emptyDicts : ∀ {top : Bool} {x : SExpr} {e : Expr}, Parses top x e →
    e.emptyDicts = e
  | _, _, _, .number _ | _, _, _, .boolean _ | _, _, _, .string _ | _, _, _, .prim _
  | _, _, _, .var _ | _, _, _, .quote _ => rfl
  | _, _, _, .define _ h => by rw [Expr.emptyDicts, h.emptyDicts]
  | _, _, _, .ifElse ht hc ha => by
    rw [Expr.emptyDicts, ht.emptyDicts, hc.emptyDicts, ha.emptyDicts]
  | _, _, _, .lambda _ _ _ h => by rw [Expr.emptyDicts, h.emptyDicts]
  | _, _, _, .letIn hb _ _ h => by
    rw [Expr.emptyDicts_app (by simp), Expr.emptyDicts, h.emptyDicts, hb.emptyDicts]
  | _, _, _, .dict h _ => by rw [Expr.emptyDicts, h.emptyDicts]
  | _, _, _, .dictCall hne _ h => by
    rw [Expr.emptyDicts_app fun _ => h.ne_nil.2 hne, Expr.emptyDicts, h.emptyDicts]
  | _, _, _, .app hk hf h => by
    rw [Expr.emptyDicts_app, hf.emptyDicts, h.emptyDicts]
    rintro rfl
    cases hf with
    | prim h =>
      rw [← Primitive.name_of_ofName? h] at hk
      cases hk

theorem ParsesAll.emptyDicts : ∀ {top : Bool} {xs : List SExpr} {es : List Expr},
    ParsesAll top xs es → emptyDictsAll es = es
  | _, _, _, .nil => rfl
  | _, _, _, .cons h hs => by rw [Expr.emptyDictsAll, h.emptyDicts, hs.emptyDicts]

theorem ParsesBindings.emptyDicts : ∀ {xs : List SExpr} {ps : List String} {vs : List Expr},
    ParsesBindings xs ps vs → emptyDictsAll vs = vs
  | _, _, _, .nil => rfl
  | _, _, _, .cons _ h hs => by rw [Expr.emptyDictsAll, h.emptyDicts, hs.emptyDicts]

theorem ParsesEntries.emptyDicts : ∀ {xs : List SExpr} {entries : List (String × Expr)},
    ParsesEntries xs entries → Expr.emptyDictsEntries entries = entries
  | _, _, .nil => rfl
  | _, _, .cons h hs => by rw [Expr.emptyDictsEntries, h.emptyDicts, hs.emptyDicts]

end

/-- What the nodes of a program that was read are like. -/
theorem parseProgram_written {s : String} {p : List Expr} (h : parseProgram s = .ok p) :
    EveryAll NodeWritten p ∧ emptyDictsAll p = p := by
  obtain ⟨forms, hforms, hp⟩ := parseProgram_eq_ok_iff.1 h
  have hread := readText_written hforms
  have hunwrapped : SExpr.WrittenAll (unwrapProgram forms) := by
    unfold unwrapProgram
    split
    · exact hread.1.1.2
    · exact hread
  exact ⟨hp.written hunwrapped, hp.emptyDicts⟩

/-! ## Desugared programs -/

theorem Expr.PlainLine.desugar {e : Expr} (h : e.PlainLine) (hw : e.Every NodeWritten)
    (strategy : Strategy) :
    (e.desugar strategy).PlainLine ∧ (e.desugar strategy).Every NodeWritten := by
  rcases h with rfl | hp
  · exact ⟨.inl rfl, hw⟩
  · have hd : (e.desugar strategy).Every NodePrintable := (hw.and hp).desugar_printable
    exact ⟨.inr (hd.imp fun _ h => h.2), hd.imp fun _ h => h.1⟩

theorem desugarAll_plainLine {p : List Expr} (hw : EveryAll NodeWritten p)
    (hp : ∀ e ∈ p, e.PlainLine) (strategy : Strategy) :
    EveryAll NodeWritten (desugarAll strategy p) ∧ ∀ e ∈ desugarAll strategy p, e.PlainLine := by
  induction p with
  | nil => exact ⟨trivial, hp⟩
  | cons e p ih =>
    obtain ⟨he, hes⟩ := List.forall_mem_cons.1 hp
    obtain ⟨hline, hwritten⟩ := he.desugar hw.1 strategy
    obtain ⟨hrest, hlines⟩ := ih hw.2 hes
    exact ⟨⟨hwritten, hrest⟩, List.forall_mem_cons.2 ⟨hline, hlines⟩⟩

/-- Desugaring makes no wrapped program. -/
theorem desugarAll_ne_wrapped {p : List Expr} (h : ∀ es, p ≠ [.app (.var "L32") es])
    (strategy : Strategy) : ∀ es, desugarAll strategy p ≠ [.app (.var "L32") es] := by
  intro es heq
  match p with
  | [] => cases heq
  | _ :: _ :: _ => cases (List.cons.inj heq).2
  | [e] =>
    have he : e.desugar strategy = .app (.var "L32") es := (List.cons.inj heq).1
    cases e with
    | app f ds =>
      rcases Expr.app_cases f ds with ⟨ks, key, rfl, rfl⟩ | hne
      · cases strategy <;> cases he
      · rw [Expr.desugar_app strategy hne] at he
        obtain ⟨hf, -⟩ := Expr.app.inj he
        have hsymbol : (f.desugar strategy).isSymbol = true := by rw [hf]; rfl
        have hsame := (Expr.eq_of_isSymbol_desugar hsymbol).2
        rw [hsame] at hf
        subst hf
        exact h ds rfl
    | _ => cases he

/-- **What a program of plain lines desugars to is printed and read again.** -/
theorem renderProgram_desugar {s : String} {p : List Expr} (h : parseProgram s = .ok p)
    (hp : ∀ e ∈ p, e.PlainLine) (hwrap : ∀ es, p ≠ [.app (.var "L32") es]) (strategy : Strategy) :
    ∃ t, renderProgram (desugarAll strategy p) = .ok t ∧
      parseProgram t = .ok (emptyDictsAll (desugarAll strategy p)) := by
  have hsound : EveryAll NodeSound (desugarAll strategy p) :=
    EveryAll.desugar strategy (parseProgram_sound h)
  obtain ⟨hw, hlines⟩ := desugarAll_plainLine (parseProgram_written h).1 hp strategy
  exact parseProgram_programText (hsound.imp fun _ h => h.1) hw hlines
    (desugarAll_ne_wrapped hwrap strategy)

/-- **Printing and reading a program changes nothing.**  A program of plain lines that was read, and
that is not taken for a wrapped program, is printed and read again as it was.  So is what it
desugars to, with empty literals for calls of `dict` without operands. -/
theorem renderProgram_reads_back {s : String} {p : List Expr} (h : parseProgram s = .ok p)
    (hp : ∀ e ∈ p, e.PlainLine) (hwrap : ∀ es, p ≠ [.app (.var "L32") es]) :
    (∃ t, renderProgram p = .ok t ∧ parseProgram t = .ok p) ∧
      ∀ strategy, ∃ t, renderProgram (desugarAll strategy p) = .ok t ∧
        parseProgram t = .ok (emptyDictsAll (desugarAll strategy p)) := by
  refine ⟨?_, renderProgram_desugar h hp hwrap⟩
  obtain ⟨hw, hempty⟩ := parseProgram_written h
  have hsame := parseProgram_programText ((parseProgram_sound h).imp fun _ h => h.1) hw hp hwrap
  rwa [hempty] at hsame

/-- A closure that makes dictionaries, a call of a literal, and a dot, quoted and on a line of its
own. -/
theorem renderProgram_reads_back_lines :
    let p : List Expr := [.define "f" (.lambda ["x"] [.dict [("a", .var "x"),
        ("b", .quote (.pair (.given 0) (.number (.int (-7))) (.string "q\"")))]]),
      .app (.dict [("if", .boolean true)]) [.quote (.symbol "if")], .quote (.symbol "."),
      .var "."]
    parseProgram
        "(define f [lambda (x) (dict (a x) (b '(-7 . \"q\\\"\")))]) ((dict (if #t)) 'if) '. ." = .ok p ∧
      (∃ t, renderProgram p = .ok t ∧ parseProgram t = .ok p) ∧
      ∃ t, renderProgram (desugarAll .lookup p) = .ok t ∧
        parseProgram t = .ok (emptyDictsAll (desugarAll .lookup p)) := by
  intro p
  have h : parseProgram
      "(define f [lambda (x) (dict (a x) (b '(-7 . \"q\\\"\")))]) ((dict (if #t)) 'if) '. ." = .ok p :=
    rfl
  have hp : ∀ e ∈ p, e.PlainLine := by
    simp [p, Expr.PlainLine, Every, EveryAll, EveryEntry, NodePlain, Value.Plain, Number.Plain]
  have hwrap : ∀ es, p ≠ [.app (.var "L32") es] := by simp [p]
  obtain ⟨hsame, hdesugared⟩ := renderProgram_reads_back h hp hwrap
  exact ⟨h, hsame, hdesugared .lookup⟩

/-- **A dot that was not quoted is lost in print.**  No double and no quoted data stands in this
program, and it is not wrapped, but its text cannot be read. -/
theorem renderProgram_dot_entry :
    let p : List Expr := [.dict [("quote", .var ".")]]
    parseProgram "(dict '.)" = .ok p ∧ renderProgram p = .ok "(dict (quote .))" ∧
      ∀ q, parseProgram "(dict (quote .))" ≠ .ok q := by
  refine ⟨rfl, rfl, ?_⟩
  intro q h
  have hfault : parseProgram "(dict (quote .))" =
      .error (.condition (.malformed .unexpectedClose)) := rfl
  rw [hfault] at h
  cases h

end Lambdict
