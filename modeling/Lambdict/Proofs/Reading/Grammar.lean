import Lambdict.TokenStream

/-!
# The grammar of forms

Which tokens spell which S-expression, as a grammar (`Spells`): a symbol or a string by itself, a
quote mark before a form, a bracketed list of items, and a bracketed list of at least one item with
a dot and a form after them.  An item of a list is any form but the lone symbol `.`, which would be
taken for that dot.

The reader is a machine with a stack and knows nothing of the grammar.  It takes the tokens of a
form wherever a form is due (`readAllFrom_of_spells`), and whatever it has on its stack is the
beginning of forms that the grammar allows (`Opened`).  So it reads a text exactly when the text's
tokens spell forms, and it gives these forms (`readAllFrom_eq_ok_iff`).
-/

namespace Lambdict

open SExpr (Frame Step complete feed beginForm)

/-- The symbol that stands between the items of a list and its last tail. -/
def Token.dot : Token := .symbol "."

mutual

/-- **The tokens that spell an S-expression.** -/
inductive Spells : List Token → SExpr → Prop
  | symbol {text : String} {x : SExpr} (h : SExpr.ofSymbol text = .ok x) :
      Spells [.symbol text] x
  | string (body : String) :
      Spells [.string body] (.string (String.ofList (SExpr.unescape body.toList)))
  | quote {ts : List Token} {x : SExpr} (h : Spells ts x) :
      Spells (.quote :: ts) (.list [.symbol "quote", x])
  | list (c d : Char) {ts : List Token} {xs : List SExpr} (h : SpellsItems ts xs) :
      Spells (.opening c :: (ts ++ [.closing d])) (.list xs)
  | dotted (c d : Char) {ts us : List Token} {xs : List SExpr} {x : SExpr} (h : SpellsItems ts xs)
      (hne : xs ≠ []) (hx : Spells us x) :
      Spells (.opening c :: (ts ++ .dot :: (us ++ [.closing d]))) (.dotted xs x)

/-- The tokens that spell the items of a list. -/
inductive SpellsItems : List Token → List SExpr → Prop
  | nil : SpellsItems [] []
  | cons {ts us : List Token} {x : SExpr} {xs : List SExpr} (h : Spells ts x) (hdot : ts ≠ [.dot])
      (hs : SpellsItems us xs) : SpellsItems (ts ++ us) (x :: xs)

end

/-- The tokens that spell the forms of a text. -/
inductive SpellsAll : List Token → List SExpr → Prop
  | nil : SpellsAll [] []
  | cons {ts us : List Token} {x : SExpr} {xs : List SExpr} (h : Spells ts x)
      (hs : SpellsAll us xs) : SpellsAll (ts ++ us) (x :: xs)

theorem SpellsItems.snoc {ts us : List Token} {x : SExpr} :
    ∀ {xs : List SExpr}, SpellsItems ts xs → Spells us x → us ≠ [.dot] →
      SpellsItems (ts ++ us) (xs ++ [x])
  | [], .nil, h, hdot => by
    have hlast := SpellsItems.cons h hdot .nil
    rwa [List.append_nil] at hlast
  | _ :: _, .cons hy hydot hs, h, hdot => by
    rw [List.append_assoc]
    exact .cons hy hydot (hs.snoc h hdot)

theorem SpellsAll.snoc {ts us : List Token} {x : SExpr} {xs : List SExpr} (hs : SpellsAll ts xs)
    (h : Spells us x) : SpellsAll (ts ++ us) (xs ++ [x]) := by
  induction hs with
  | nil =>
    have hlast := SpellsAll.cons h .nil
    rwa [List.append_nil] at hlast
  | cons hy _ ih =>
    rw [List.append_assoc]
    exact .cons hy ih

/-! ## The reader takes what the grammar allows -/

/-- Whether tokens that spell a form are taken for one: not after the form behind a dot, and in a
list a lone dot is not. -/
def Due : List Frame → List Token → Prop
  | .tail _ _ :: _, _ => False
  | .list _ :: _, ts => ts ≠ [.dot]
  | _, _ => True

theorem Due.of_ne {stack : List Frame} {ts us : List Token} (h : Due stack ts)
    (hne : us ≠ [.dot]) : Due stack us := by
  match stack with
  | [] | .quote :: _ | .dot _ :: _ => trivial
  | .list _ :: _ => exact hne
  | .tail _ _ :: _ => exact h.elim

/-- A token that begins a form where one is due. -/
theorem feed_eq_beginForm {t : Token} {stack : List Frame} (hd : Due stack [t])
    (hc : ∀ c, t ≠ .closing c) : feed t stack = beginForm t stack := by
  match stack with
  | [] | .quote :: _ | .dot _ :: _ => rfl
  | .tail _ _ :: _ => exact hd.elim
  | .list items :: stack =>
    have hdot : t ≠ .symbol "." := fun h => hd (h ▸ rfl)
    cases t with
    | closing c => exact absurd rfl (hc c)
    | _ => simp [feed, hdot]

/-- The reader goes on after a form is complete. -/
def resume (fault : Option Malformed) (done : List SExpr) (rest : List Token) :
    Step → Except Error (List SExpr) × TokenStream
  | .shift stack => TokenStream.readAllFrom fault stack done rest
  | .form x => TokenStream.readAllFrom fault [] (x :: done) rest
  | .refuse e _ => (.error e, ⟨rest, fault⟩)

theorem readAllFrom_cons_shift {fault : Option Malformed} {stack stack' : List Frame}
    {done : List SExpr} {t : Token} (h : feed t stack = .shift stack') (rest : List Token) :
    TokenStream.readAllFrom fault stack done (t :: rest) =
      TokenStream.readAllFrom fault stack' done rest := by
  rw [TokenStream.readAllFrom, h]

/-- Completing a form refuses nothing. -/
theorem complete_ne_refuse (x : SExpr) (stack : List Frame) (e : Error) (taken : Bool) :
    complete x stack ≠ .refuse e taken := by
  fun_induction complete x stack <;> simp_all

theorem readAllFrom_cons_complete {fault : Option Malformed} {stack stack' : List Frame}
    {done : List SExpr} {t : Token} {x : SExpr} (h : feed t stack = complete x stack')
    (rest : List Token) :
    TokenStream.readAllFrom fault stack done (t :: rest) =
      resume fault done rest (complete x stack') := by
  rw [TokenStream.readAllFrom, h]
  cases hc : complete x stack' with
  | shift stack => rfl
  | form y => rfl
  | refuse e taken => exact absurd hc (complete_ne_refuse x stack' e taken)

section

variable (fault : Option Malformed)

mutual

/-- **The reader takes the tokens of a form** where a form is due. -/
theorem readAllFrom_of_spells (stack : List Frame) (done : List SExpr) (rest : List Token) :
    ∀ {ts : List Token} {x : SExpr}, Spells ts x → Due stack ts →
      TokenStream.readAllFrom fault stack done (ts ++ rest) =
        resume fault done rest (complete x stack)
  | _, _, .symbol h, hd => by
    refine readAllFrom_cons_complete ?_ rest
    rw [feed_eq_beginForm hd (by simp)]
    simp only [beginForm, h]
  | _, _, .string body, hd => by
    refine readAllFrom_cons_complete ?_ rest
    rw [feed_eq_beginForm hd (by simp)]
    rfl
  | _, _, .quote h, hd => by
    have hquote : feed .quote stack = .shift (.quote :: stack) :=
      feed_eq_beginForm (hd.of_ne (by simp [Token.dot])) (by simp)
    rw [List.cons_append, readAllFrom_cons_shift hquote]
    exact readAllFrom_of_spells (.quote :: stack) done rest h trivial
  | _, _, @Spells.list c d _ xs h, hd => by
    have hopen : feed (.opening c) stack = .shift (.list [] :: stack) :=
      feed_eq_beginForm (hd.of_ne (by simp [Token.dot])) (by simp)
    have hclose : feed (.closing d) (.list xs.reverse :: stack) = complete (.list xs) stack := by
      simp [feed]
    rw [List.cons_append, readAllFrom_cons_shift hopen, List.append_assoc,
      readAllFrom_of_items stack [] done _ h, List.append_nil]
    exact readAllFrom_cons_complete hclose rest
  | _, _, @Spells.dotted c d _ _ xs x h hne hx, hd => by
    have hopen : feed (.opening c) stack = .shift (.list [] :: stack) :=
      feed_eq_beginForm (hd.of_ne (by simp [Token.dot])) (by simp)
    have hdot : feed .dot (.list xs.reverse :: stack) = .shift (.dot xs.reverse :: stack) := by
      simp [feed, Token.dot, hne]
    have hclose : feed (.closing d) (.tail xs.reverse x :: stack) =
        complete (.dotted xs x) stack := by
      simp [feed]
    rw [List.cons_append, readAllFrom_cons_shift hopen, List.append_assoc,
      readAllFrom_of_items stack [] done _ h, List.append_nil, List.cons_append,
      readAllFrom_cons_shift hdot, List.append_assoc,
      readAllFrom_of_spells (.dot xs.reverse :: stack) done _ hx trivial]
    exact readAllFrom_cons_complete hclose rest

/-- The reader takes the tokens of the items of a list that is open. -/
theorem readAllFrom_of_items (stack : List Frame) (items done : List SExpr) (rest : List Token) :
    ∀ {ts : List Token} {xs : List SExpr}, SpellsItems ts xs →
      TokenStream.readAllFrom fault (.list items :: stack) done (ts ++ rest) =
        TokenStream.readAllFrom fault (.list (xs.reverse ++ items) :: stack) done rest
  | _, _, .nil => rfl
  | _, _, @SpellsItems.cons _ us x _ h hdot hs => by
    rw [List.append_assoc, readAllFrom_of_spells (.list items :: stack) done _ h hdot]
    show TokenStream.readAllFrom fault (.list (x :: items) :: stack) done (us ++ rest) = _
    rw [readAllFrom_of_items stack (x :: items) done rest hs]
    simp

end

/-- The reader takes the tokens of several forms where no list is open. -/
theorem readAllFrom_of_spellsAll (rest : List Token) {ts : List Token} {xs : List SExpr}
    (h : SpellsAll ts xs) (done : List SExpr) :
    TokenStream.readAllFrom fault [] done (ts ++ rest) =
      TokenStream.readAllFrom fault [] (xs.reverse ++ done) rest := by
  induction h generalizing done with
  | nil => rfl
  | cons hx _ ih =>
    rw [List.append_assoc, readAllFrom_of_spells fault [] done _ hx trivial]
    show TokenStream.readAllFrom fault [] (_ :: done) _ = _
    rw [ih]
    simp

end

/-! ## What the reader takes, the grammar allows -/

/-- **What is open on the stack**, and the tokens that opened it. -/
inductive Opened : List Frame → List Token → Prop
  | nil : Opened [] []
  | quote {stack : List Frame} {ts : List Token} (h : Opened stack ts) (hd : Due stack [.quote]) :
      Opened (.quote :: stack) (ts ++ [.quote])
  | list {stack : List Frame} {ts us : List Token} {items : List SExpr} (c : Char)
      (h : Opened stack ts) (hd : Due stack [.opening c]) (hs : SpellsItems us items.reverse) :
      Opened (.list items :: stack) (ts ++ .opening c :: us)
  | dot {stack : List Frame} {ts us : List Token} {items : List SExpr} (c : Char)
      (h : Opened stack ts) (hd : Due stack [.opening c]) (hs : SpellsItems us items.reverse)
      (hne : items ≠ []) : Opened (.dot items :: stack) (ts ++ .opening c :: (us ++ [.dot]))
  | tail {stack : List Frame} {ts us vs : List Token} {items : List SExpr} {last : SExpr} (c : Char)
      (h : Opened stack ts) (hd : Due stack [.opening c]) (hs : SpellsItems us items.reverse)
      (hne : items ≠ []) (hx : Spells vs last) :
      Opened (.tail items last :: stack) (ts ++ .opening c :: (us ++ .dot :: vs))

/-- What comes of tokens: an open stack, or a form that they spell. -/
def Step.Spelled (ts : List Token) : Step → Prop
  | .shift stack => Opened stack ts
  | .form x => Spells ts x
  | .refuse _ _ => True

/-- A form is complete: what was open with it at the end is open still, or complete too. -/
theorem complete_spelled {stack : List Frame} {ts us : List Token} {x : SExpr}
    (h : Opened stack ts) (hd : Due stack us) (hx : Spells us x) :
    Step.Spelled (ts ++ us) (complete x stack) := by
  induction h generalizing us x with
  | nil => exact hx
  | quote h hdue ih =>
    rw [List.append_assoc]
    exact ih (hdue.of_ne (by simp [Token.dot])) (.quote hx)
  | list c h hdue hs _ =>
    rw [List.append_assoc]
    refine .list c h hdue ?_
    rw [List.reverse_cons]
    exact hs.snoc hx hd
  | dot c h hdue hs hne _ =>
    rw [List.append_assoc, List.cons_append, List.append_assoc]
    exact .tail c h hdue hs hne hx
  | tail => exact hd.elim

theorem beginForm_spelled {stack : List Frame} {ts : List Token} {t : Token} (h : Opened stack ts)
    (hd : Due stack [t]) : Step.Spelled (ts ++ [t]) (beginForm t stack) := by
  cases t with
  | quote => exact .quote h hd
  | opening c => exact .list c h hd .nil
  | closing c => trivial
  | string body => exact complete_spelled h hd (.string body)
  | symbol text =>
    simp only [beginForm]
    split
    · next hx => exact complete_spelled h hd (.symbol hx)
    · trivial

/-- **One token** keeps what is open within the grammar. -/
theorem feed_spelled {stack : List Frame} {ts : List Token} (t : Token) (h : Opened stack ts) :
    Step.Spelled (ts ++ [t]) (feed t stack) := by
  cases h with
  | nil => exact beginForm_spelled .nil trivial
  | quote h hd => exact beginForm_spelled (.quote h hd) trivial
  | dot c h hd hs hne => exact beginForm_spelled (.dot c h hd hs hne) trivial
  | @list stack _ _ items c h hd hs =>
    by_cases hdot : t = .symbol "."
    · subst hdot
      simp only [feed, if_true]
      split
      · trivial
      · next hne =>
        rw [List.append_assoc]
        exact .dot c h hd hs (by simpa using hne)
    · have hdue : Due (.list items :: stack) [t] := fun heq => hdot (List.cons.inj heq).1
      cases t with
      | closing d =>
        simp only [feed]
        rw [List.append_assoc]
        exact complete_spelled h (hd.of_ne (by simp [Token.dot])) (.list c d hs)
      | _ =>
        rw [feed_eq_beginForm hdue (by simp)]
        exact beginForm_spelled (.list c h hd hs) hdue
  | tail c h hd hs hne hx =>
    cases t with
    | closing d =>
      simp only [feed]
      rw [List.append_assoc, List.cons_append, List.append_assoc, List.cons_append]
      exact complete_spelled h (hd.of_ne (by simp [Token.dot]))
        (.dotted c d hs (by simpa using hne) hx)
    | _ => trivial

theorem spellsAll_of_readAllFrom {fault : Option Malformed} {stack : List Frame}
    {done xs : List SExpr} {ds ts tokens : List Token} (hd : SpellsAll ds done.reverse)
    (hs : Opened stack ts)
    (h : (TokenStream.readAllFrom fault stack done tokens).1 = .ok xs) :
    fault = none ∧ SpellsAll (ds ++ (ts ++ tokens)) xs := by
  induction tokens generalizing stack done ds ts with
  | nil =>
    cases fault with
    | some f => cases h
    | none =>
      simp only [TokenStream.readAllFrom, TokenStream.atEnd] at h
      split at h
      · next hempty =>
        rw [List.isEmpty_iff] at hempty
        subst hempty
        cases hs
        cases h
        exact ⟨rfl, by simpa using hd⟩
      · cases h
  | cons t tokens ih =>
    have hfeed := feed_spelled t hs
    rw [TokenStream.readAllFrom] at h
    have hassoc : ts ++ t :: tokens = ts ++ [t] ++ tokens := by simp
    rw [hassoc]
    split at h
    · next heq =>
      rw [heq] at hfeed
      exact ih hd hfeed h
    · next x heq =>
      rw [heq] at hfeed
      have hdone : SpellsAll (ds ++ (ts ++ [t])) (x :: done).reverse := by
        rw [List.reverse_cons]
        exact hd.snoc hfeed
      have hrest := ih hdone .nil h
      rwa [List.nil_append, List.append_assoc] at hrest
    · cases h

/-- **The reader reads exactly what the grammar allows**, and only from a text that is not cut
short. -/
theorem readAllFrom_eq_ok_iff {fault : Option Malformed} {tokens : List Token} {xs : List SExpr} :
    (TokenStream.readAllFrom fault [] [] tokens).1 = .ok xs ↔
      fault = none ∧ SpellsAll tokens xs := by
  constructor
  · intro h
    have hdone : SpellsAll [] ([] : List SExpr).reverse := .nil
    exact spellsAll_of_readAllFrom hdone .nil h
  · rintro ⟨rfl, h⟩
    have hread := readAllFrom_of_spellsAll none [] h []
    rw [List.append_nil] at hread
    rw [hread]
    simp [TokenStream.readAllFrom, TokenStream.atEnd]

/-- **The texts that can be read**, and the forms they give. -/
theorem readText_eq_ok_iff {s : String} {xs : List SExpr} :
    SExpr.readText s = .ok xs ↔ (lex s).2 = none ∧ SpellsAll (lex s).1 xs :=
  readAllFrom_eq_ok_iff

end Lambdict
