import Lambdict.Proofs.Parsed
import Lambdict.Proofs.Reading.Grammar

/-!
# Token sequences taken apart

A sequence of tokens is read if and only if it can be taken apart into forms, and then in one way
only.  Here the forms are trees that keep every token (`Form`), so that "in one way" can be said of
the tree and not just of what it denotes.  A dot is a symbol like others where no list is open, but
no item of a list (`Form.Proper`).

That there is one way only is the usual argument for prefix codes: what stands at the head of a
sequence says which form it begins, and the form says where it ends (`Form.eq_of_tokens_append`).
That there is one at all for what can be read comes from the grammar that the reader follows, of
whose derivations the forms are the trees (`spellsAll_iff`).
-/

namespace Lambdict

open SExpr (Frame complete feed beginForm exists_of_bind_eq_ok)

/-- **Forms**, as their tokens are put together.  Brackets keep their shape. -/
inductive Form
  | symbol (text : String)
  | string (body : String)
  | quote (f : Form)
  | list (c d : Char) (items : List Form)
  | dotted (c d : Char) (items : List Form) (tail : Form)

namespace Form

mutual

/-- The tokens of a form. -/
def tokens : Form → List Token
  | .symbol text => [.symbol text]
  | .string body => [.string body]
  | .quote f => .quote :: f.tokens
  | .list c d items => .opening c :: (tokensAll items ++ [.closing d])
  | .dotted c d items tail =>
    .opening c :: (tokensAll items ++ .dot :: (tail.tokens ++ [.closing d]))

/-- The tokens of several forms. -/
def tokensAll : List Form → List Token
  | [] => []
  | f :: fs => f.tokens ++ tokensAll fs

end

mutual

/-- **The forms that can be read**: no item of a list is the lone symbol `.`, and a dot comes after
at least one item. -/
def Proper : Form → Prop
  | .symbol _ | .string _ => True
  | .quote f => f.Proper
  | .list _ _ items => ItemsProper items
  | .dotted _ _ items tail => items ≠ [] ∧ ItemsProper items ∧ tail.Proper

/-- The same of the items of a list. -/
def ItemsProper : List Form → Prop
  | [] => True
  | f :: fs => (f ≠ .symbol "." ∧ f.Proper) ∧ ItemsProper fs

end

mutual

/-- **The S-expression that a form denotes**, unless an integer in it has too many digits. -/
def denotes : Form → Except Error SExpr
  | .symbol text => SExpr.ofSymbol text
  | .string body => .ok (.string (String.ofList (SExpr.unescape body.toList)))
  | .quote f => do
    let x ← f.denotes
    return .list [.symbol "quote", x]
  | .list _ _ items => do
    let xs ← denotesAll items
    return .list xs
  | .dotted _ _ items tail => do
    let xs ← denotesAll items
    let x ← tail.denotes
    return .dotted xs x

/-- The S-expressions that several forms denote. -/
def denotesAll : List Form → Except Error (List SExpr)
  | [] => .ok []
  | f :: fs => do
    let x ← f.denotes
    let xs ← denotesAll fs
    return x :: xs

end

/-! ## One decomposition at most -/

/-- A token that ends the items of a list: a closing bracket or a dot. -/
def IsStop (t : Token) : Prop := (∃ d, t = .closing d) ∨ t = .dot

/-- No item of a list begins with a token that ends the items. -/
theorem stop_ne_tokens {f : Form} (hf : f ≠ .symbol ".") {t : Token} (ht : IsStop t)
    (us rest : List Token) : t :: us ≠ f.tokens ++ rest := by
  intro h
  rcases ht with ⟨d, rfl⟩ | rfl <;> cases f <;> simp_all [tokens, Token.dot]

mutual

/-- **A form says where it ends**: it is the only form that a sequence of tokens begins with. -/
theorem eq_of_tokens_append (f g : Form) {rest rest' : List Token} (hf : f.Proper) (hg : g.Proper)
    (h : f.tokens ++ rest = g.tokens ++ rest') : f = g ∧ rest = rest' := by
  match f, g with
  | .symbol text, g | .string body, g =>
    cases g <;> simp_all [tokens]
  | .quote f, .quote g =>
    obtain ⟨rfl, hrest⟩ := eq_of_tokens_append f g hf hg (List.cons.inj h).2
    exact ⟨rfl, hrest⟩
  | .list c d items, .list c' d' items' =>
    simp only [tokens, List.cons_append, List.append_assoc, List.nil_append, List.cons.injEq,
      Token.opening.injEq] at h
    obtain ⟨rfl, h⟩ := h
    obtain ⟨rfl, hd, hrest⟩ := eq_of_items_append items items' hf hg (.inl ⟨d, rfl⟩)
      (.inl ⟨d', rfl⟩) h
    cases hd
    exact ⟨rfl, hrest⟩
  | .list c d items, .dotted c' d' items' tail' =>
    simp only [tokens, List.cons_append, List.append_assoc, List.nil_append, List.cons.injEq] at h
    obtain ⟨-, hd, -⟩ := eq_of_items_append items items' hf hg.2.1 (.inl ⟨d, rfl⟩) (.inr rfl) h.2
    cases hd
  | .dotted c d items tail, .list c' d' items' =>
    simp only [tokens, List.cons_append, List.append_assoc, List.nil_append, List.cons.injEq] at h
    obtain ⟨-, hd, -⟩ := eq_of_items_append items items' hf.2.1 hg (.inr rfl) (.inl ⟨d', rfl⟩) h.2
    cases hd
  | .dotted c d items tail, .dotted c' d' items' tail' =>
    simp only [tokens, List.cons_append, List.append_assoc, List.nil_append, List.cons.injEq,
      Token.opening.injEq] at h
    obtain ⟨rfl, h⟩ := h
    obtain ⟨rfl, -, htail⟩ := eq_of_items_append items items' hf.2.1 hg.2.1 (.inr rfl) (.inr rfl) h
    obtain ⟨rfl, hclose⟩ := eq_of_tokens_append tail tail' hf.2.2 hg.2.2 htail
    obtain ⟨hd, hrest⟩ := List.cons.inj hclose
    cases hd
    exact ⟨rfl, hrest⟩
  | .quote _, .symbol _ | .quote _, .string _ | .quote _, .list .. | .quote _, .dotted ..
  | .list .., .symbol _ | .list .., .string _ | .list .., .quote _
  | .dotted .., .symbol _ | .dotted .., .string _ | .dotted .., .quote _ => simp [tokens] at h

/-- The items of a list say where they end. -/
theorem eq_of_items_append (fs gs : List Form) {t t' : Token} {rest rest' : List Token}
    (hf : ItemsProper fs) (hg : ItemsProper gs) (ht : IsStop t) (ht' : IsStop t')
    (h : tokensAll fs ++ t :: rest = tokensAll gs ++ t' :: rest') :
    fs = gs ∧ t = t' ∧ rest = rest' := by
  match fs, gs with
  | [], [] => simpa [tokensAll] using h
  | [], g :: gs =>
    rw [tokensAll, tokensAll, List.nil_append, List.append_assoc] at h
    exact absurd h (stop_ne_tokens hg.1.1 ht _ _)
  | f :: fs, [] =>
    rw [tokensAll, tokensAll, List.nil_append, List.append_assoc] at h
    exact absurd h.symm (stop_ne_tokens hf.1.1 ht' _ _)
  | f :: fs, g :: gs =>
    rw [tokensAll, tokensAll, List.append_assoc, List.append_assoc] at h
    obtain ⟨rfl, htail⟩ := eq_of_tokens_append f g hf.1.2 hg.1.2 h
    obtain ⟨rfl, hrest⟩ := eq_of_items_append fs gs hf.2 hg.2 ht ht' htail
    exact ⟨rfl, hrest⟩

end

theorem tokens_ne_nil (f : Form) : f.tokens ≠ [] := by
  cases f <;> simp [tokens]

/-- A sequence of tokens consists of forms in one way only. -/
theorem eq_of_tokensAll_eq : ∀ {fs gs : List Form}, (∀ f ∈ fs, f.Proper) → (∀ g ∈ gs, g.Proper) →
    tokensAll fs = tokensAll gs → fs = gs
  | [], [], _, _, _ => rfl
  | [], g :: _, _, _, h => absurd (List.append_eq_nil_iff.1 h.symm).1 g.tokens_ne_nil
  | f :: _, [], _, _, h => absurd (List.append_eq_nil_iff.1 h).1 f.tokens_ne_nil
  | f :: fs, g :: gs, hf, hg, h => by
    obtain ⟨hf, hfs⟩ := List.forall_mem_cons.1 hf
    obtain ⟨hg, hgs⟩ := List.forall_mem_cons.1 hg
    obtain ⟨rfl, hrest⟩ := eq_of_tokens_append f g hf hg h
    rw [eq_of_tokensAll_eq hfs hgs hrest]

/-! ## Forms are what the grammar derives -/

theorem eq_nil_of_denotesAll {fs : List Form} (h : denotesAll fs = .ok []) : fs = [] := by
  cases fs with
  | nil => rfl
  | cons f fs =>
    obtain ⟨y, -, h⟩ := exists_of_bind_eq_ok h
    obtain ⟨ys, -, h⟩ := exists_of_bind_eq_ok h
    cases h

/-- The lone symbol `.` is the only form of that one token. -/
theorem tokens_eq_dot_iff {f : Form} : f.tokens = [.dot] ↔ f = .symbol "." := by
  cases f <;> simp [tokens, Token.dot]

mutual

/-- A form spells what it denotes. -/
theorem spells : ∀ {f : Form} {x : SExpr}, f.Proper → f.denotes = .ok x → Spells f.tokens x
  | .symbol _, _, _, h => .symbol h
  | .string body, _, _, h => by
    cases h
    exact .string body
  | .quote _, _, hf, h => by
    obtain ⟨y, hy, h⟩ := exists_of_bind_eq_ok h
    cases h
    exact .quote (spells hf hy)
  | .list c d _, _, hf, h => by
    obtain ⟨xs, hxs, h⟩ := exists_of_bind_eq_ok h
    cases h
    exact .list c d (spellsItems hf hxs)
  | .dotted c d items _, _, hf, h => by
    obtain ⟨xs, hxs, h⟩ := exists_of_bind_eq_ok h
    obtain ⟨y, hy, h⟩ := exists_of_bind_eq_ok h
    cases h
    have hne : xs ≠ [] := by
      rintro rfl
      exact hf.1 (eq_nil_of_denotesAll hxs)
    exact .dotted c d (spellsItems hf.2.1 hxs) hne (spells hf.2.2 hy)

/-- The items of a list spell what they denote. -/
theorem spellsItems : ∀ {fs : List Form} {xs : List SExpr}, ItemsProper fs →
    denotesAll fs = .ok xs → SpellsItems (tokensAll fs) xs
  | [], _, _, h => by
    cases h
    exact .nil
  | _ :: _, _, hf, h => by
    obtain ⟨y, hy, h⟩ := exists_of_bind_eq_ok h
    obtain ⟨ys, hys, h⟩ := exists_of_bind_eq_ok h
    cases h
    exact .cons (spells hf.1.2 hy) (mt tokens_eq_dot_iff.1 hf.1.1) (spellsItems hf.2 hys)

end

mutual

/-- Tokens that spell an S-expression are those of a form that denotes it. -/
theorem exists_of_spells : ∀ {ts : List Token} {x : SExpr}, Spells ts x →
    ∃ f : Form, f.Proper ∧ f.tokens = ts ∧ f.denotes = .ok x
  | _, _, @Spells.symbol text _ h => ⟨.symbol text, trivial, rfl, h⟩
  | _, _, .string body => ⟨.string body, trivial, rfl, rfl⟩
  | _, _, .quote h => by
    obtain ⟨f, hf, rfl, hx⟩ := exists_of_spells h
    refine ⟨.quote f, hf, rfl, ?_⟩
    rw [denotes, hx]
    rfl
  | _, _, .list c d h => by
    obtain ⟨fs, hfs, rfl, hxs⟩ := exists_of_spellsItems h
    refine ⟨.list c d fs, hfs, rfl, ?_⟩
    rw [denotes, hxs]
    rfl
  | _, _, .dotted c d h hne hx => by
    obtain ⟨fs, hfs, rfl, hxs⟩ := exists_of_spellsItems h
    obtain ⟨f, hf, rfl, htail⟩ := exists_of_spells hx
    refine ⟨.dotted c d fs f, ⟨?_, hfs, hf⟩, rfl, ?_⟩
    · rintro rfl
      cases hxs
      exact hne rfl
    · rw [denotes, hxs, htail]
      rfl

/-- The same of the items of a list. -/
theorem exists_of_spellsItems : ∀ {ts : List Token} {xs : List SExpr}, SpellsItems ts xs →
    ∃ fs : List Form, ItemsProper fs ∧ tokensAll fs = ts ∧ denotesAll fs = .ok xs
  | _, _, .nil => ⟨[], trivial, rfl, rfl⟩
  | _, _, .cons h hdot hs => by
    obtain ⟨f, hf, rfl, hx⟩ := exists_of_spells h
    obtain ⟨fs, hfs, rfl, hxs⟩ := exists_of_spellsItems hs
    refine ⟨f :: fs, ⟨⟨mt tokens_eq_dot_iff.2 hdot, hf⟩, hfs⟩, rfl, ?_⟩
    rw [denotesAll, hx, hxs]
    rfl

end

end Form

/-- **A sequence of tokens taken apart** into forms. -/
structure Decomposes (ts : List Token) (fs : List Form) : Prop where
  proper : ∀ f ∈ fs, f.Proper
  tokens : Form.tokensAll fs = ts

/-- A sequence of tokens can be taken apart in one way at most. -/
theorem Decomposes.unique {ts : List Token} {fs gs : List Form} (hf : Decomposes ts fs)
    (hg : Decomposes ts gs) : fs = gs :=
  Form.eq_of_tokensAll_eq hf.proper hg.proper (hf.tokens.trans hg.tokens.symm)

theorem spellsAll_iff {ts : List Token} {xs : List SExpr} :
    SpellsAll ts xs ↔ ∃ fs, Decomposes ts fs ∧ Form.denotesAll fs = .ok xs := by
  constructor
  · intro h
    induction h with
    | nil => exact ⟨[], ⟨by simp, rfl⟩, rfl⟩
    | cons hx _ ih =>
      obtain ⟨f, hf, htokens, hx⟩ := Form.exists_of_spells hx
      obtain ⟨fs, ⟨hfs, hrest⟩, hxs⟩ := ih
      refine ⟨f :: fs, ⟨List.forall_mem_cons.2 ⟨hf, hfs⟩, ?_⟩, ?_⟩
      · rw [Form.tokensAll, htokens, hrest]
      · rw [Form.denotesAll, hx, hxs]
        rfl
  · rintro ⟨fs, ⟨hproper, rfl⟩, hxs⟩
    induction fs generalizing xs with
    | nil =>
      cases hxs
      exact .nil
    | cons f fs ih =>
      obtain ⟨hf, hfs⟩ := List.forall_mem_cons.1 hproper
      obtain ⟨y, hy, h⟩ := exists_of_bind_eq_ok hxs
      obtain ⟨ys, hys, h⟩ := exists_of_bind_eq_ok h
      cases h
      exact .cons (Form.spells hf hy) (ih hys hfs)

/-! ## What cannot be taken apart -/

namespace Token

/-- Whether a token denotes no integer of too many digits. -/
def Short : Token → Prop
  | .symbol text => ∀ n, Numeral.parse? text.toList = some n → n.isInteger = true →
      n.whole.length ≤ Number.digitLimit
  | _ => True

/-- A bracket of either kind is made round. -/
def round : Token → Token
  | .opening _ => .opening '('
  | .closing _ => .closing ')'
  | t => t

theorem Short.ofSymbol {text : String} (h : (Token.symbol text).Short) :
    ∃ x, SExpr.ofSymbol text = .ok x := by
  unfold SExpr.ofSymbol
  split
  · exact ⟨_, rfl⟩
  split
  · exact ⟨_, rfl⟩
  split
  · exact ⟨_, rfl⟩
  next n hn =>
  by_cases hinteger : n.isInteger = true
  · rw [Numeral.toNumber, if_pos hinteger, if_pos (h n hn hinteger)]
    exact ⟨_, rfl⟩
  · rw [Numeral.toNumber, if_neg hinteger]
    exact ⟨_, rfl⟩

end Token

mutual

/-- A form whose integers are short denotes something. -/
theorem Form.exists_denotes : ∀ f : Form, (∀ t ∈ f.tokens, t.Short) → ∃ x, f.denotes = .ok x
  | .symbol text, h => (h (.symbol text) (List.mem_singleton.2 rfl)).ofSymbol
  | .string _, _ => ⟨_, rfl⟩
  | .quote f, h => by
    obtain ⟨x, hx⟩ := f.exists_denotes fun t ht => h t (List.mem_cons_of_mem _ ht)
    exact ⟨_, by rw [denotes, hx]; rfl⟩
  | .list c d items, h => by
    obtain ⟨xs, hxs⟩ := Form.exists_denotesAll items fun t ht => h t (by simp [tokens, ht])
    exact ⟨_, by rw [denotes, hxs]; rfl⟩
  | .dotted c d items tail, h => by
    obtain ⟨xs, hxs⟩ := Form.exists_denotesAll items fun t ht => h t (by simp [tokens, ht])
    obtain ⟨x, hx⟩ := tail.exists_denotes fun t ht => h t (by simp [tokens, ht])
    exact ⟨_, by rw [denotes, hxs, hx]; rfl⟩

theorem Form.exists_denotesAll : ∀ fs : List Form, (∀ t ∈ tokensAll fs, t.Short) →
    ∃ xs, denotesAll fs = .ok xs
  | [], _ => ⟨[], rfl⟩
  | f :: fs, h => by
    obtain ⟨x, hx⟩ := f.exists_denotes fun t ht => h t (List.mem_append_left _ ht)
    obtain ⟨xs, hxs⟩ := Form.exists_denotesAll fs fun t ht => h t (List.mem_append_right _ ht)
    exact ⟨_, by rw [denotesAll, hx, hxs]; rfl⟩

end

theorem malformed_of_refuse {fault : Malformed} {e : Error} {taken : Bool}
    (h : SExpr.refuse fault = .refuse e taken) : e = .condition (.malformed fault) := by
  cases h
  rfl

theorem malformed_of_beginForm {t : Token} {stack : List Frame} {e : Error} {taken : Bool}
    (ht : t.Short) (h : beginForm t stack = .refuse e taken) :
    ∃ fault, e = .condition (.malformed fault) := by
  cases t with
  | quote | opening c => cases h
  | closing c => exact ⟨_, malformed_of_refuse h⟩
  | string body => exact (complete_ne_refuse _ stack e taken h).elim
  | symbol text =>
    obtain ⟨x, hx⟩ := ht.ofSymbol
    simp only [beginForm, hx] at h
    exact (complete_ne_refuse x stack e taken h).elim

/-- A token without a long integer is refused only as malformed. -/
theorem malformed_of_feed {t : Token} {stack : List Frame} {e : Error} {taken : Bool}
    (ht : t.Short) (h : feed t stack = .refuse e taken) :
    ∃ fault, e = .condition (.malformed fault) := by
  match stack with
  | [] | .quote :: _ | .dot _ :: _ => exact malformed_of_beginForm ht h
  | .tail _ _ :: _ =>
    cases t with
    | closing d => exact (complete_ne_refuse _ _ e taken h).elim
    | _ => exact ⟨_, malformed_of_refuse h⟩
  | .list items :: stack =>
    by_cases hdot : t = .dot
    · subst hdot
      cases items with
      | nil => exact ⟨_, malformed_of_refuse h⟩
      | cons => cases h
    by_cases hclose : ∃ d, t = .closing d
    · obtain ⟨d, rfl⟩ := hclose
      exact (complete_ne_refuse _ _ e taken h).elim
    have hdue : Due (.list items :: stack) [t] := fun heq => hdot (List.cons.inj heq).1
    rw [feed_eq_beginForm hdue fun d hd => hclose ⟨d, hd⟩] at h
    exact malformed_of_beginForm ht h

/-- **The reader fails only with a malformed text**, if no integer is too long. -/
theorem malformed_of_readAllFrom {stack : List Frame} {done : List SExpr} {tokens : List Token}
    {e : Error} (ht : ∀ t ∈ tokens, t.Short)
    (h : (TokenStream.readAllFrom none stack done tokens).1 = .error e) :
    ∃ fault, e = .condition (.malformed fault) := by
  induction tokens generalizing stack done with
  | nil =>
    simp only [TokenStream.readAllFrom, TokenStream.atEnd] at h
    split at h <;> cases h
    exact ⟨_, rfl⟩
  | cons t tokens ih =>
    obtain ⟨ht, htokens⟩ := List.forall_mem_cons.1 ht
    rw [TokenStream.readAllFrom] at h
    split at h
    · exact ih htokens h
    · exact ih htokens h
    · next heq =>
      cases h
      exact malformed_of_feed ht heq

/-! ## Kinds of brackets -/

theorem beginForm_round (t : Token) (stack : List Frame) :
    beginForm t.round stack = beginForm t stack := by
  cases t <;> rfl

theorem feed_round (t : Token) (stack : List Frame) : feed t.round stack = feed t stack := by
  match stack with
  | [] | .quote :: _ | .dot _ :: _ => exact beginForm_round t _
  | .list _ :: _ | .tail _ _ :: _ => cases t <;> rfl

/-- **The reader does not see which kind a bracket is of.** -/
theorem readAllFrom_round (fault : Option Malformed) (stack : List Frame) (done : List SExpr)
    (tokens : List Token) :
    (TokenStream.readAllFrom fault stack done (tokens.map Token.round)).1 =
      (TokenStream.readAllFrom fault stack done tokens).1 := by
  induction tokens generalizing stack done with
  | nil => rfl
  | cons t tokens ih =>
    rw [List.map_cons, TokenStream.readAllFrom, TokenStream.readAllFrom, feed_round]
    cases feed t stack with
    | shift stack => exact ih stack done
    | form x => exact ih [] (x :: done)
    | refuse e taken => rfl

/-! ## What is read -/

theorem readAll_eq_ok_iff {ts : List Token} {xs : List SExpr} :
    (TokenStream.mk ts none).readAll.1 = .ok xs ↔
      ∃ fs, Decomposes ts fs ∧ Form.denotesAll fs = .ok xs := by
  rw [TokenStream.readAll, readAllFrom_eq_ok_iff, spellsAll_iff, and_iff_right rfl]

/-- **What the reader makes of tokens** without long integers.  If they can be taken apart into
forms, then in one way only, and the reader gives what these forms denote; if they cannot, they are
malformed.  Which kind a bracket is of makes no difference. -/
theorem readAll_of_short {ts : List Token} (h : ∀ t ∈ ts, t.Short) :
    (∀ xs, (TokenStream.mk ts none).readAll.1 = .ok xs ↔
      ∃ fs, Decomposes ts fs ∧ Form.denotesAll fs = .ok xs) ∧
    (∀ fs, Decomposes ts fs →
      (∀ gs, Decomposes ts gs → gs = fs) ∧ ∃ xs, Form.denotesAll fs = .ok xs) ∧
    ((¬ ∃ fs, Decomposes ts fs) →
      ∃ fault, (TokenStream.mk ts none).readAll.1 = .error (.condition (.malformed fault))) ∧
    ∀ us, us.map Token.round = ts.map Token.round →
      (TokenStream.mk us none).readAll.1 = (TokenStream.mk ts none).readAll.1 := by
  refine ⟨fun xs => readAll_eq_ok_iff, fun fs hfs => ⟨fun gs hgs => hgs.unique hfs, ?_⟩,
    fun hnone => ?_, fun us hus => ?_⟩
  · exact Form.exists_denotesAll fs fun t ht => h t (hfs.tokens ▸ ht)
  · cases hread : (TokenStream.mk ts none).readAll.1 with
    | ok xs =>
      obtain ⟨fs, hfs, -⟩ := readAll_eq_ok_iff.1 hread
      exact absurd ⟨fs, hfs⟩ hnone
    | error e =>
      obtain ⟨fault, rfl⟩ := malformed_of_readAllFrom h hread
      exact ⟨fault, rfl⟩
  · rw [TokenStream.readAll, TokenStream.readAll, ← readAllFrom_round none [] [] us,
      ← readAllFrom_round none [] [] ts, hus]

/-- The tokens of `[a . .)`, whose last dot is a symbol. -/
theorem readAll_of_short_dotted :
    (TokenStream.mk [.opening '[', .symbol "a", .dot, .symbol ".", .closing ')'] none).readAll.1 =
      .ok [.dotted [.symbol "a"] (.symbol ".")] := by
  have hshort : ∀ t ∈ [.opening '[', .symbol "a", .dot, .symbol ".", .closing ')'],
      Token.Short t := by
    intro t ht
    simp only [List.mem_cons, List.not_mem_nil, or_false] at ht
    rcases ht with rfl | rfl | rfl | rfl | rfl
    · trivial
    · rintro n ⟨⟩
    · rintro n ⟨⟩
    · rintro n ⟨⟩
    · trivial
  refine ((readAll_of_short hshort).1 _).2 ⟨[.dotted '[' ')' [.symbol "a"] (.symbol ".")], ?_, rfl⟩
  refine ⟨?_, rfl⟩
  simp [Form.Proper, Form.ItemsProper]

end Lambdict
