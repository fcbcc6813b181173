import Lambdict.Proofs.Number.Text
import Lambdict.Proofs.Printing.Written

/-!
# The text of a form

The text of a printable expression lexes to tokens that spell its form (`Expr.Every.denotes_text`).
The printer writes a list item by item, each after a space, and a chain of pairs as a list whose
last tail closes it.  So there are three kinds of text: one that denotes a form (`Denotes`), one
that denotes the further items of a list (`DenotesItems`), and one that closes a list that is open
(`Closes`).  Each has its rules, and the printer follows them.
-/

namespace Lambdict

/-- **A text that denotes an S-expression**, also as an item of a list. -/
def Denotes (cs : List Char) (x : SExpr) : Prop :=
  ∃ ts, Lexes cs ts ∧ Spells ts x ∧ ts ≠ [.dot]

/-- A text that denotes items after the first item of a list. -/
def DenotesItems (cs : List Char) (xs : List SExpr) : Prop :=
  ∃ ts, Lexes cs ts ∧ SpellsItems ts xs ∧ Delimits cs

/-- A text that ends a list of which some items are written already; it goes on with the items of
one S-expression or has it as its last tail. -/
def Closes (cs : List Char) (x : SExpr) : Prop :=
  ∃ ts, Lexes cs ts ∧ Delimits cs ∧ ∀ us xs, SpellsItems us xs → xs ≠ [] →
    Spells (.opening '(' :: (us ++ ts)) (x.prepend xs)

/-! ## Atoms -/

/-- A text that is read as an atom denotes it. -/
theorem Denotes.atom {text : String} {x : SExpr} (ht : SymbolText text.toList)
    (hx : SExpr.ofSymbol text = .ok x) (hdot : text ≠ ".") : Denotes text.toList x :=
  ⟨[.symbol text], .symbol ht, .symbol hx, by simpa [Token.dot] using hdot⟩

/-- A name denotes its symbol. -/
theorem Denotes.symbol {x : String} (hx : IsName x) (hdot : x ≠ ".") :
    Denotes x.toList (.symbol x) :=
  .atom hx.text hx.denotes hdot

theorem Denotes.keyword {x : String} (h : x ∈ ["quote", "if", "lambda", "define", "dict"]) :
    Denotes x.toList (.symbol x) := by
  refine .symbol (isName_keyword (List.mem_append_left ["self", "entries", "box"] h)) ?_
  rintro rfl
  exact absurd h (by decide)

theorem Denotes.primitive (p : Primitive) : Denotes p.name.toList (.symbol p.name) :=
  .symbol (isName_primitive p) (by cases p <;> decide)

/-- A double that is no integer is printed with its digits. -/
theorem Number.text_of_plain {negative : Bool} {u : Nat} (h : u % Double.scale ≠ 0) :
    (Number.float (.finite negative u)).text = (Double.finite negative u).text := by
  simp [text, Double.toInt?, h]

/-- **The numbers that print as themselves**: the text of a number that was read denotes this number
if and only if the number is plain. -/
theorem Number.Written.ofSymbol_text_iff {n : Number} (h : n.Written) :
    SExpr.ofSymbol n.text = .ok (.number n) ↔ n.Plain := by
  -- the names of the doubles that are not finite are no numerals
  have hname (name : String) (hname : Numeral.parse? name.toList = none) :
      SExpr.ofSymbol name ≠ .ok (.number n) := by
    intro hread
    obtain ⟨m, hparse, -⟩ := SExpr.ofSymbol_eq_number_iff.1 hread
    rw [hname] at hparse
    cases hparse
  match n with
  | .int n => exact iff_of_true (SExpr.ofSymbol_intText h) trivial
  | .float .nan => exact iff_of_false (hname "nan" (by decide)) id
  | .float (.infinite false) => exact iff_of_false (hname "inf" (by decide)) id
  | .float (.infinite true) => exact iff_of_false (hname "-inf" (by decide)) id
  | .float (.finite negative u) =>
    by_cases hu : u % Double.scale = 0
    · have htext : (Number.float (.finite negative u)).text =
          Number.intText (Double.signed negative (u / Double.scale)) := by
        simp [text, Double.toInt?, hu]
      rw [htext]
      exact iff_of_false (SExpr.ofSymbol_intText_ne_float _ _) fun hplain => hplain hu
    · refine iff_of_true ?_ hu
      cases h with
      | finite _ hgrid =>
        obtain ⟨m, hparse, hkind, hdouble⟩ := Double.parse?_text negative hgrid
        rw [Number.text_of_plain hu]
        exact SExpr.ofSymbol_eq_number_iff.2 ⟨m, hparse, by simp [Numeral.toNumber, hkind, hdouble]⟩

/-- The characters of a number may stand in a symbol, and make no boolean. -/
theorem isSymbolChar_of_numeral {c : Char} (h : Decimal.IsNumeralChar c) :
    isSymbolChar c = true ∧ c ≠ '#' := by
  rcases h with h | h
  · refine ⟨isSymbolChar_of_isDigit h, ?_⟩
    rintro rfl
    exact absurd h (by decide)
  · simp only [List.mem_cons, List.not_mem_nil, or_false] at h
    rcases h with rfl | rfl | rfl | rfl <;> decide

/-- The text of a finite double is one symbol token. -/
theorem symbolText_double (negative : Bool) {u : Nat} (hpos : 0 < u) :
    SymbolText (Double.finite negative u).text.toList := by
  have hchars := Double.text_chars negative hpos
  refine ⟨?_, fun c hc => (isSymbolChar_of_numeral (hchars c hc)).1, ?_⟩
  · have hreads := Decimal.shortest_readsAs hpos
    obtain ⟨c, cs, hhead, -⟩ := Decimal.write_head .standard hreads.digits hreads.nonempty
    rw [Double.toList_text negative hpos, hhead]
    simp
  · intro rest heq
    exact (isSymbolChar_of_numeral (hchars '#' (by simp [heq]))).2 rfl

/-- **A plain number that was read is read again.** -/
theorem Denotes.number {n : Number} (h : n.Written) (hn : n.Plain) :
    Denotes n.text.toList (.number n) := by
  have hread := h.ofSymbol_text_iff.2 hn
  refine .atom ?_ hread ?_
  · match n with
    | .int n => exact symbolText_intText n
    | .float (.finite negative u) =>
      have hfraction : u % Double.scale ≠ 0 := hn
      rw [Number.text_of_plain hfraction]
      exact symbolText_double negative (Nat.pos_of_ne_zero fun hzero => hfraction (by simp [hzero]))
  · intro hdot
    rw [hdot] at hread
    cases hread

theorem Denotes.boolean (b : Bool) : Denotes (truthText b).toList (.boolean b) :=
  .atom (symbolText_truthText b) (by cases b <;> rfl) (by cases b <;> decide)

/-- A string is escaped as the lexer reads it. -/
theorem Denotes.string (s : String) : Denotes (stringText s).toList (.string s) := by
  have htext : (stringText s).toList = '\x22' :: (escaped s.toList ++ ['\x22']) := by
    simp [stringText, escaped]
  have hspells := Spells.string (String.ofList (escaped s.toList))
  rw [String.toList_ofList, unescape_escaped, String.ofList_toList] at hspells
  rw [htext]
  exact ⟨_, .string s, hspells, by simp [Token.dot]⟩

/-! ## Lists -/

theorem delimits_closing : Delimits [')'] := .cons (by decide) _

theorem Delimits.space (cs : List Char) : Delimits (' ' :: cs) := .cons (by decide) _

theorem DenotesItems.nil : DenotesItems [] [] := ⟨[], .nil, .nil, .nil⟩

/-- An item and further items, with a blank before each. -/
theorem DenotesItems.cons {cs ds : List Char} {x : SExpr} {xs : List SExpr} (h : Denotes cs x)
    (hs : DenotesItems ds xs) : DenotesItems (' ' :: (cs ++ ds)) (x :: xs) := by
  obtain ⟨ts, hlex, hspells, hdot⟩ := h
  obtain ⟨us, hlexs, hspellss, hdelim⟩ := hs
  exact ⟨ts ++ us, (hlex.append hlexs hdelim).space, .cons hspells hdot hspellss, .space _⟩

theorem Denotes.nil : Denotes ['(', ')'] (.list []) :=
  ⟨_, Lexes.closing.opening, .list '(' ')' .nil, by simp [Token.dot]⟩

/-- A list is denoted by its items in parentheses. -/
theorem Denotes.list {cs ds : List Char} {x : SExpr} {xs : List SExpr} (h : Denotes cs x)
    (hs : DenotesItems ds xs) : Denotes ('(' :: (cs ++ (ds ++ [')']))) (.list (x :: xs)) := by
  obtain ⟨ts, hlex, hspells, hdot⟩ := h
  obtain ⟨us, hlexs, hspellss, hdelim⟩ := hs
  have hrest := hlexs.append .closing delimits_closing
  refine ⟨_, (hlex.append hrest (hdelim.append delimits_closing)).opening, ?_, by simp [Token.dot]⟩
  rw [← List.append_assoc]
  exact .list '(' ')' (.cons hspells hdot hspellss)

/-- After a quote mark the dot is a symbol like others. -/
theorem Denotes.quote {cs : List Char} {ts : List Token} {x : SExpr} (hlex : Lexes cs ts)
    (hspells : Spells ts x) : Denotes ('\x27' :: cs) (.list [.symbol "quote", x]) :=
  ⟨_, hlex.quote, .quote hspells, by simp [Token.dot]⟩

theorem DenotesItems.names {ps : List String} (h : ∀ p ∈ ps, IsName p ∧ p ≠ ".") :
    DenotesItems (ps.flatMap fun p => ' ' :: p.toList) (ps.map .symbol) := by
  induction ps with
  | nil => exact .nil
  | cons p ps ih =>
    obtain ⟨hp, hps⟩ := List.forall_mem_cons.1 h
    exact .cons (.symbol hp.1 hp.2) (ih hps)

theorem toList_intercalate_space (p : String) (ps : List String) :
    (" ".intercalate (p :: ps)).toList = p.toList ++ ps.flatMap fun q => ' ' :: q.toList := by
  induction ps generalizing p with
  | nil => simp
  | cons q ps ih => simp [String.intercalate_cons_cons, ih]

/-- The names of a parameter list. -/
theorem Denotes.names {ps : List String} (h : ∀ p ∈ ps, IsName p ∧ p ≠ ".") :
    Denotes ('(' :: ((" ".intercalate ps).toList ++ [')'])) (.list (ps.map .symbol)) := by
  cases ps with
  | nil => exact .nil
  | cons p ps =>
    obtain ⟨hp, hps⟩ := List.forall_mem_cons.1 h
    rw [toList_intercalate_space, List.append_assoc]
    exact .list (.symbol hp.1 hp.2) (.names hps)

/-! ## Chains -/

theorem Closes.nil : Closes [')'] (.list []) := by
  refine ⟨_, .closing, delimits_closing, fun us xs hs _ => ?_⟩
  rw [SExpr.prepend, List.append_nil]
  exact .list '(' ')' hs

/-- An item comes before what closes a list. -/
theorem Closes.cons {cs ds : List Char} {x y : SExpr} (h : Denotes cs x) (hs : Closes ds y) :
    Closes (' ' :: (cs ++ ds)) (y.prepend [x]) := by
  obtain ⟨ts, hlex, hspells, hdot⟩ := h
  obtain ⟨us, hlexs, hdelim, hcloses⟩ := hs
  refine ⟨_, (hlex.append hlexs hdelim).space, .space _, fun vs xs hvs _ => ?_⟩
  rw [SExpr.prepend_prepend, ← List.append_assoc]
  exact hcloses (vs ++ ts) (xs ++ [x]) (hvs.snoc hspells hdot) (by simp)

/-- What is not a list closes a chain after a dot. -/
theorem Closes.dotted {cs : List Char} {x : SExpr} (h : Denotes cs x)
    (hx : ∀ xs, x.prepend xs = .dotted xs x) :
    Closes (' ' :: '.' :: ' ' :: (cs ++ [')'])) x := by
  obtain ⟨ts, hlex, hspells, -⟩ := h
  have hdot : Lexes ['.'] [.dot] := @Lexes.symbol "." (by decide)
  have htail := (hlex.append .closing delimits_closing).space
  refine ⟨_, (hdot.append htail (.space _)).space, .space _, fun us xs hus hne => ?_⟩
  rw [hx]
  exact .dotted '(' ')' hus hne hspells

/-- A list that ends in whatever closes it. -/
theorem Denotes.chain {cs ds : List Char} {x y : SExpr} (h : Denotes cs x) (hs : Closes ds y) :
    Denotes ('(' :: (cs ++ ds)) (y.prepend [x]) := by
  obtain ⟨ts, hlex, hspells, hdot⟩ := h
  obtain ⟨us, hlexs, hdelim, hcloses⟩ := hs
  have hitem := SpellsItems.snoc .nil hspells hdot
  exact ⟨_, (hlex.append hlexs hdelim).opening, hcloses ts [x] hitem (by simp), by simp [Token.dot]⟩

/-! ## The printer follows the rules -/

/-- An atom is written alike alone and in a chain, but for the dot before it. -/
theorem Denotes.inChain {s : String} {x : SExpr} (h : Denotes s.toList x)
    (hx : ∀ xs, x.prepend xs = .dotted xs x) :
    Denotes (Lambdict.inChain false s).toList x ∧ Closes (Lambdict.inChain true s).toList x := by
  refine ⟨h, ?_⟩
  have htext : (Lambdict.inChain true s).toList = ' ' :: '.' :: ' ' :: (s.toList ++ [')']) := by
    simp [Lambdict.inChain]
  rw [htext]
  exact .dotted h hx

/-- **The text of plain data denotes its form**, alone and as the tail of a chain. -/
theorem Value.Written.denotes_text : ∀ {d : Value}, d.Written → d.Plain →
    Denotes (d.textIn true false).toList d.form ∧ Closes (d.textIn true true).toList d.form
  | .number _, hw, hp => Denotes.inChain (.number hw hp) fun _ => rfl
  | .boolean b, _, _ => Denotes.inChain (.boolean b) fun _ => rfl
  | .string s, _, _ => Denotes.inChain (.string s) fun _ => rfl
  | .symbol _, hw, hp => Denotes.inChain (.symbol hw hp) fun _ => rfl
  | .empty, _, _ => ⟨.nil, .nil⟩
  | .pair id h t, hw, hp => by
    have hhead := (Value.Written.denotes_text hw.2.1 hp.1).1
    have htail := (Value.Written.denotes_text hw.2.2 hp.2).2
    have htext (tail : Bool) : ((Value.pair id h t).textIn true tail).toList =
        (if tail then ' ' else '(') ::
          ((h.textIn true false).toList ++ (t.textIn true true).toList) := by
      cases tail <;> simp [Value.textIn]
    rw [htext, htext]
    exact ⟨.chain hhead htail, .cons hhead htail⟩

namespace Expr

mutual

/-- **The text of a printable expression denotes its form.** -/
theorem Every.denotes_text : ∀ {e : Expr}, e.Every NodePrintable → Denotes e.text.toList e.form
  | .number _, h => .number h.1 h.2
  | .boolean b, _ => .boolean b
  | .string s, _ => .string s
  | .var _, h => .symbol h.1.1 h.2
  | .prim p, _ => .primitive p
  | .quote d, h => by
    have htext : (Expr.quote d).text.toList = '\x27' :: (d.textIn true false).toList := by
      simp [Expr.text]
    rw [htext]
    rcases h.2 with rfl | hplain
    · exact .quote (.symbol (by decide)) (.symbol rfl)
    · obtain ⟨ts, hlex, hspells, -⟩ := (Value.Written.denotes_text (d := d) h.1 hplain).1
      exact .quote hlex hspells
  | .cond t c a, h => by
    have hitems : DenotesItems _ [t.form, c.form, a.form] :=
      .cons h.2.1.denotes_text (.cons h.2.2.1.denotes_text (.cons h.2.2.2.denotes_text .nil))
    have htext : (Expr.cond t c a).text.toList = '(' :: ("if".toList ++
        ((' ' :: (t.text.toList ++ ' ' :: (c.text.toList ++ ' ' :: (a.text.toList ++ [])))) ++
          [')'])) := by
      simp [Expr.text]
    rw [htext]
    exact .list (.keyword (by simp)) hitems
  | .define x e, h => by
    have hitems : DenotesItems _ [.symbol x, e.form] :=
      .cons (.symbol h.1.1.1.1 h.1.1.2) (.cons h.2.denotes_text .nil)
    have htext : (Expr.define x e).text.toList = '(' :: ("define".toList ++
        ((' ' :: (x.toList ++ ' ' :: (e.text.toList ++ []))) ++ [')'])) := by
      simp [Expr.text]
    rw [htext]
    exact .list (.keyword (by simp)) hitems
  | .lambda ps b, h => by
    have hps : ∀ p ∈ ps, IsName p ∧ p ≠ "." := fun p hp =>
      ⟨(h.1.1 p hp).1, fun heq => h.1.2 (heq ▸ hp)⟩
    have hitems := DenotesItems.cons (Denotes.names hps) (EveryAll.denotes_text h.2)
    have htext : (Expr.lambda ps b).text.toList = '(' :: ("lambda".toList ++
        ((' ' :: (('(' :: ((" ".intercalate ps).toList ++ [')'])) ++ (textAll b).toList)) ++
          [')'])) := by
      simp [Expr.text]
    rw [htext]
    exact .list (.keyword (by simp)) hitems
  | .app f es, h => by
    have htext : (Expr.app f es).text.toList =
        '(' :: (f.text.toList ++ ((textAll es).toList ++ [')'])) := by
      simp [Expr.text]
    rw [htext]
    exact .list h.2.1.denotes_text (EveryAll.denotes_text h.2.2)
  | .dict es, h => by
    have htext : (Expr.dict es).text.toList =
        '(' :: ("dict".toList ++ ((textEntries es).toList ++ [')'])) := by
      simp [Expr.text]
    rw [htext]
    exact .list (.keyword (by simp)) (EveryEntry.denotes_text h.2 h.1.1)
  | .foreign _, h => h.1.elim

/-- The texts of expressions denote their forms. -/
theorem EveryAll.denotes_text : ∀ {es : List Expr}, EveryAll NodePrintable es →
    DenotesItems (textAll es).toList (formAll es)
  | [], _ => .nil
  | e :: es, h => by
    have htext : (textAll (e :: es)).toList = ' ' :: (e.text.toList ++ (textAll es).toList) := by
      simp [textAll]
    rw [htext]
    exact .cons h.1.denotes_text (EveryAll.denotes_text h.2)

theorem EveryEntry.denotes_text : ∀ {es : List (String × Expr)}, EveryEntry NodePrintable es →
    (∀ k ∈ es.map Prod.fst, IsName k ∧ k ≠ ".") →
    DenotesItems (textEntries es).toList (formEntries es)
  | [], _, _ => .nil
  | (k, e) :: es, h, hk => by
    obtain ⟨hkey, hkeys⟩ := List.forall_mem_cons.1 hk
    have hentry := Denotes.list (.symbol hkey.1 hkey.2) (.cons h.1.denotes_text .nil)
    have htext : (textEntries ((k, e) :: es)).toList =
        ' ' :: (('(' :: (k.toList ++ ((' ' :: (e.text.toList ++ [])) ++ [')']))) ++
          (textEntries es).toList) := by
      simp [textEntries]
    rw [htext]
    exact .cons hentry (EveryEntry.denotes_text h.2 hkeys)

end

end Expr

end Lambdict
