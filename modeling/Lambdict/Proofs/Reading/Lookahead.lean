import Lambdict.Proofs.Reading.Streams
import Mathlib.Tactic.ByContra

/-!
# Looking ahead in a text

A stream need not have the tokens of its text before they are wanted.  Here it has a lexer that goes
on in the text only when the next token is asked for (`Lexer`), and a place for a token that was
looked at but not taken (`Lookahead`).  Forms are read by looking at the next token and taking it,
and by nothing else.

Such a stream answers every call as the stream of tokens does that has them all at hand
(`Lookahead.askAll_rest`).  Beyond that it is known what became of each token: a record is kept of
the tokens that were taken and of how often the lexer was asked.  However the calls are mixed, and
whether they fail or not, the tokens that were taken, the one that was looked at and those that the
lexer has not given yet make up the tokens of the text, in this order (`Lookahead.Accounts`).
-/

namespace Lambdict

/-! ## A lexer that goes on when it is asked -/

/-- A lexer on its way through a text. -/
inductive Lexer
  /-- Tokens that are complete and not given yet, and where the lexer is in the text. -/
  | going (complete : List Token) (mode : Mode) (position : Nat) (rest : List Char)
  /-- The text is at its end: tokens that are not given yet, and what is wrong after them. -/
  | ending (left : TokenStream)

namespace Lexer

/-- The lexer at the beginning of a text. -/
def start (text : String) : Lexer :=
  .going [] .between 0 text.toList

/-- All that a lexer has not given yet. -/
def left : Lexer → TokenStream
  | .going complete m i cs => ⟨complete ++ (lexFrom m i cs).1, (lexFrom m i cs).2⟩
  | .ending s => s

/-- Goes on from where the lexer is in the text, up to the next token that is complete. -/
def goOn (m : Mode) (i : Nat) : List Char → Except Error (Option Token) × Lexer
  | [] =>
    let s : TokenStream := ⟨m.finish.1, m.finish.2⟩
    (s.advance.1, .ending s.advance.2)
  | c :: cs =>
    match m.step i c with
    | (m', t :: ts) => (.ok (some t), .going ts m' (i + 1) cs)
    | (m', []) => goOn m' (i + 1) cs

/-- **The next token**, or `none` when there is no more.  What is wrong with the text is said once,
when the token after the last good one is asked for. -/
def next : Lexer → Except Error (Option Token) × Lexer
  | .going (t :: ts) m i cs => (.ok (some t), .going ts m i cs)
  | .going [] m i cs => goOn m i cs
  | .ending s => (s.advance.1, .ending s.advance.2)

@[simp]
theorem left_start (text : String) : (start text).left = .ofText text := rfl

theorem goOn_left (m : Mode) (i : Nat) (cs : List Char) :
    ((goOn m i cs).1, (goOn m i cs).2.left) = (Lexer.going [] m i cs).left.advance := by
  induction cs generalizing m i with
  | nil => rfl
  | cons c cs ih =>
    rw [goOn]
    cases hstep : m.step i c with
    | mk m' ts =>
      cases ts with
      | nil =>
        rw [ih m' (i + 1)]
        simp [left, lexFrom, hstep]
      | cons t ts => simp [left, lexFrom, hstep, TokenStream.advance]

theorem next_left (l : Lexer) : (l.next.1, l.next.2.left) = l.left.advance := by
  match l with
  | .going (t :: ts) m i cs => rfl
  | .going [] m i cs => exact goOn_left m i cs
  | .ending s => rfl

/-- What can come of asking a lexer: the first token that is left, or the end of the text, where a
fault is said. -/
inductive Gives (l : Lexer) : Except Error (Option Token) × Lexer → Prop
  | token {t : Token} {l' : Lexer} (h : l.left = ⟨t :: l'.left.pending, l'.left.fault⟩) :
      Gives l (.ok (some t), l')
  | none {l' : Lexer} (h : l.left = .ended) (h' : l'.left = .ended) : Gives l (.ok none, l')
  | fault {f : Malformed} {l' : Lexer} (h : l.left = ⟨[], some f⟩) (h' : l'.left = .ended) :
      Gives l (.error f.toError, l')

/-- **The lexer gives what is left**, one token after another. -/
theorem gives_next (l : Lexer) : l.Gives l.next := by
  have hnext := l.next_left
  generalize l.next = p at hnext ⊢
  obtain ⟨r, l'⟩ := p
  match hleft : l.left with
  | ⟨t :: ts, f⟩ =>
    rw [hleft] at hnext
    obtain ⟨rfl, hl'⟩ := Prod.mk.inj hnext
    exact .token (by rw [hleft, hl'])
  | ⟨[], Option.none⟩ =>
    rw [hleft] at hnext
    obtain ⟨rfl, hl'⟩ := Prod.mk.inj hnext
    exact .none hleft hl'
  | ⟨[], some f⟩ =>
    rw [hleft] at hnext
    obtain ⟨rfl, hl'⟩ := Prod.mk.inj hnext
    exact .fault hleft hl'

end Lexer

/-! ## Looking at a token and taking it -/

/-- **A stream that looks ahead**, with a record of what was done. -/
structure Lookahead where
  lexer : Lexer
  /-- Tokens that were looked at and not taken. -/
  buffer : List Token
  /-- The tokens that were taken, in order. -/
  taken : List Token
  /-- How often the lexer was asked for a token. -/
  asked : Nat

namespace Lookahead

/-- The stream at the beginning of a text. -/
def start (text : String) : Lookahead :=
  ⟨.start text, [], [], 0⟩

/-- What is left to be taken. -/
def rest (s : Lookahead) : TokenStream :=
  ⟨s.buffer ++ s.lexer.left.pending, s.lexer.left.fault⟩

/-- Asks the lexer for a token. -/
def fetch (s : Lookahead) : Except Error (Option Token) × Lookahead :=
  (s.lexer.next.1, { s with lexer := s.lexer.next.2, asked := s.asked + 1 })

/-- Looks at the next token. -/
def peek (s : Lookahead) : Except Error (Option Token) × Lookahead :=
  match s.buffer with
  | t :: _ => (.ok (some t), s)
  | [] =>
    match s.fetch with
    | (.ok (some t), s') => (.ok (some t), { s' with buffer := [t] })
    | r => r

/-- Takes the next token. -/
def advance (s : Lookahead) : Except Error (Option Token) × Lookahead :=
  match s.buffer with
  | t :: ts => (.ok (some t), { s with buffer := ts, taken := s.taken ++ [t] })
  | [] =>
    match s.fetch with
    | (.ok (some t), s') => (.ok (some t), { s' with taken := s'.taken ++ [t] })
    | r => r

/-- What can come of looking at the next token, and what comes of taking it then. -/
inductive Looks (s : Lookahead) : Except Error (Option Token) × Lookahead →
    Except Error (Option Token) × Lookahead → Prop
  /-- It was looked at before. -/
  | again {t : Token} {ts : List Token} (h : s.buffer = t :: ts) :
      Looks s (.ok (some t), s) (.ok (some t), { s with buffer := ts, taken := s.taken ++ [t] })
  /-- The lexer gives it. -/
  | first {t : Token} {l : Lexer} (h : s.buffer = [])
      (hl : s.lexer.left = ⟨t :: l.left.pending, l.left.fault⟩) :
      Looks s (.ok (some t), { s with lexer := l, buffer := [t], asked := s.asked + 1 })
        (.ok (some t), { s with lexer := l, taken := s.taken ++ [t], asked := s.asked + 1 })
  /-- There is none. -/
  | none {l : Lexer} (h : s.buffer = []) (hl : s.lexer.left = .ended) (hl' : l.left = .ended) :
      Looks s (.ok none, { s with lexer := l, asked := s.asked + 1 })
        (.ok none, { s with lexer := l, asked := s.asked + 1 })
  /-- The text has a fault in its place. -/
  | fault {f : Malformed} {l : Lexer} (h : s.buffer = []) (hl : s.lexer.left = ⟨[], some f⟩)
      (hl' : l.left = .ended) :
      Looks s (.error f.toError, { s with lexer := l, asked := s.asked + 1 })
        (.error f.toError, { s with lexer := l, asked := s.asked + 1 })

theorem looks (s : Lookahead) : s.Looks s.peek s.advance := by
  obtain ⟨l, buffer, taken, asked⟩ := s
  cases buffer with
  | cons t ts => exact .again rfl
  | nil =>
    have hgives := l.gives_next
    simp only [peek, advance, fetch]
    cases hnext : l.next with
    | mk r l' =>
      rw [hnext] at hgives
      cases hgives with
      | token h => exact .first rfl h
      | none h h' => exact .none rfl h h'
      | fault h h' => exact .fault rfl h h'

/-- **Looking at the next token** is looking at the first that is left. -/
theorem peek_rest (s : Lookahead) : (s.peek.1, s.peek.2.rest) = s.rest.peek := by
  have hlooks := s.looks
  generalize s.peek = p at hlooks
  generalize s.advance = q at hlooks
  cases hlooks with
  | again h => simp [rest, h, TokenStream.peek]
  | first h hl => simp [rest, h, hl, TokenStream.peek]
  | none h hl hl' => simp [rest, h, hl, hl', TokenStream.peek, TokenStream.atEnd, TokenStream.ended]
  | fault h hl hl' =>
    simp [rest, h, hl, hl', TokenStream.peek, TokenStream.atEnd, TokenStream.ended,
      Malformed.toError]

/-- **Taking the next token** is taking the first that is left. -/
theorem advance_rest (s : Lookahead) : (s.advance.1, s.advance.2.rest) = s.rest.advance := by
  have hlooks := s.looks
  generalize s.peek = p at hlooks
  generalize s.advance = q at hlooks
  cases hlooks with
  | again h => simp [rest, h, TokenStream.advance]
  | first h hl => simp [rest, h, hl, TokenStream.advance]
  | none h hl hl' =>
    simp [rest, h, hl, hl', TokenStream.advance, TokenStream.atEnd, TokenStream.ended]
  | fault h hl hl' =>
    simp [rest, h, hl, hl', TokenStream.advance, TokenStream.atEnd, TokenStream.ended,
      Malformed.toError]

/-- A token that is looked at stays the first that is left, until it is taken. -/
theorem rest_of_peek {s s' : Lookahead} {t : Token} (h : s.peek = (.ok (some t), s')) :
    s'.rest = s.rest ∧ s.rest = ⟨t :: s'.advance.2.rest.pending, s'.advance.2.rest.fault⟩ := by
  have hlooks := s.looks
  rw [h] at hlooks
  generalize s.advance = q at hlooks
  cases hlooks with
  | again hb => simp [rest, advance, hb]
  | first hb hl => simp [rest, advance, hb, hl]

theorem rest_of_peek_none {s s' : Lookahead} (h : s.peek = (.ok none, s')) :
    s.rest = .ended ∧ s'.rest = .ended := by
  have hlooks := s.looks
  rw [h] at hlooks
  generalize s.advance = q at hlooks
  cases hlooks with
  | none hb hl hl' => simp [rest, hb, hl, hl', TokenStream.ended]

theorem rest_of_peek_error {s s' : Lookahead} {e : Error} (h : s.peek = (.error e, s')) :
    ∃ f : Malformed, e = f.toError ∧ s.rest = ⟨[], some f⟩ ∧ s'.rest = .ended := by
  have hlooks := s.looks
  rw [h] at hlooks
  generalize s.advance = q at hlooks
  cases hlooks with
  | @fault f l hb hl hl' =>
    exact ⟨f, rfl, by simp [rest, hb, hl], by simp [rest, hb, hl', TokenStream.ended]⟩

/-! ## Reading forms -/

/-- Reads one form, with contexts open. -/
def readFormFrom (stack : List SExpr.Frame) (s : Lookahead) : Except Error SExpr × Lookahead :=
  match _h : s.peek with
  | (.ok (some t), s') =>
    match SExpr.feed t stack with
    | .shift stack' => readFormFrom stack' s'.advance.2
    | .form x => (.ok x, s'.advance.2)
    | .refuse e taken => (.error e, if taken then s'.advance.2 else s')
  | (.ok none, s') => (.error (.condition (.malformed (SExpr.endFault stack))), s')
  | (.error e, s') => (.error e, s')
termination_by s.rest.pending.length
decreasing_by
  rw [(rest_of_peek _h).2]
  exact Nat.lt_succ_self _

/-- Reads one form. -/
def readForm (s : Lookahead) : Except Error SExpr × Lookahead :=
  readFormFrom [] s

/-- Reads one form, if the stream is not at its end. -/
def readNext (s : Lookahead) : Except Error (Option SExpr) × Lookahead :=
  match s.peek with
  | (.ok (some _), s') => (s'.readForm.1.map some, s'.readForm.2)
  | (.ok none, s') => (.ok none, s')
  | (.error e, s') => (.error e, s')

theorem readFormFrom_rest (stack : List SExpr.Frame) (s : Lookahead) :
    ((readFormFrom stack s).1, (readFormFrom stack s).2.rest) =
      TokenStream.readFormFrom s.rest.fault stack s.rest.pending := by
  fun_induction readFormFrom stack s with
  | case1 stack s t s' hpeek stack' hfeed ih =>
    rw [ih, (rest_of_peek hpeek).2, TokenStream.readFormFrom, hfeed]
  | case2 stack s t s' hpeek x hfeed =>
    rw [(rest_of_peek hpeek).2, TokenStream.readFormFrom, hfeed]
  | case3 stack s t s' hpeek e taken hfeed =>
    obtain ⟨hsame, hrest⟩ := rest_of_peek hpeek
    rw [hrest, TokenStream.readFormFrom, hfeed]
    cases taken
    · simp [hsame, hrest]
    · rfl
  | case4 stack s s' hpeek =>
    obtain ⟨hrest, hrest'⟩ := rest_of_peek_none hpeek
    rw [hrest, hrest']
    rfl
  | case5 stack s e s' hpeek =>
    obtain ⟨f, rfl, hrest, hrest'⟩ := rest_of_peek_error hpeek
    rw [hrest, hrest']
    rfl

theorem readForm_rest (s : Lookahead) : (s.readForm.1, s.readForm.2.rest) = s.rest.readForm :=
  readFormFrom_rest [] s

theorem readNext_rest (s : Lookahead) : (s.readNext.1, s.readNext.2.rest) = s.rest.readNext := by
  have hpeek := s.peek_rest
  unfold readNext TokenStream.readNext
  rw [← hpeek]
  generalize s.peek = p
  match p with
  | (.ok (some t), s') =>
    have hform := s'.readForm_rest
    simp only [← hform]
  | (.ok none, s') => rfl
  | (.error e, s') => rfl

/-- A form that is read takes tokens. -/
theorem length_of_readNext {s s' : Lookahead} {x : SExpr} (h : s.readNext = (.ok (some x), s')) :
    s'.rest.pending.length < s.rest.pending.length := by
  have hnext := s.readNext_rest
  rw [h] at hnext
  exact TokenStream.length_of_readNext hnext.symm

/-- Reads all forms up to the end, one after another, with forms read before in reverse. -/
def readAllFrom (done : List SExpr) (s : Lookahead) : Except Error (List SExpr) × Lookahead :=
  match _h : s.readNext with
  | (.ok (some x), s') => readAllFrom (x :: done) s'
  | (.ok none, s') => (.ok done.reverse, s')
  | (.error e, s') => (.error e, s')
termination_by s.rest.pending.length
decreasing_by exact length_of_readNext _h

theorem readAllFrom_rest (done : List SExpr) (s : Lookahead) :
    ((readAllFrom done s).1, (readAllFrom done s).2.rest) =
      TokenStream.readAllFrom s.rest.fault [] done s.rest.pending := by
  fun_induction readAllFrom done s with
  | case1 done s x s' hnext ih =>
    have hrest := s.readNext_rest
    rw [ih, TokenStream.readAllFrom_nil s.rest, ← hrest, hnext]
  | case2 done s s' hnext =>
    have hrest := s.readNext_rest
    rw [TokenStream.readAllFrom_nil, ← hrest, hnext]
  | case3 done s e s' hnext =>
    have hrest := s.readNext_rest
    rw [TokenStream.readAllFrom_nil, ← hrest, hnext]

/-- Reads all forms up to the end. -/
def readAll (s : Lookahead) : Except Error (List SExpr) × Lookahead :=
  readAllFrom [] s

/-! ## Calls -/

/-- **Asks a stream that looks ahead.** -/
def ask : StreamCall → Lookahead → Except Error StreamAnswer × Lookahead
  | .peek, s => answerBy .token s.peek
  | .advance, s => answerBy .token s.advance
  | .form, s => answerBy .form s.readForm
  | .next, s => answerBy .next s.readNext
  | .all, s => answerBy .forms s.readAll

/-- **Asks a stream that looks ahead again and again**, whatever comes of it. -/
def askAll : List StreamCall → Lookahead → List (Except Error StreamAnswer) × Lookahead
  | [], s => ([], s)
  | c :: calls, s => ((s.ask c).1 :: (askAll calls (s.ask c).2).1, (askAll calls (s.ask c).2).2)

theorem answerBy_rest {α : Type} (kind : α → StreamAnswer) {r : Except Error α × Lookahead}
    {q : Except Error α × TokenStream} (h : (r.1, r.2.rest) = q) :
    ((answerBy kind r).1, (answerBy kind r).2.rest) = answerBy kind q := by
  subst h
  rfl

/-- **Each call is answered as if all tokens were at hand.** -/
theorem ask_rest (c : StreamCall) (s : Lookahead) :
    ((s.ask c).1, (s.ask c).2.rest) = s.rest.ask c := by
  cases c with
  | peek => exact answerBy_rest _ s.peek_rest
  | advance => exact answerBy_rest _ s.advance_rest
  | form => exact answerBy_rest _ s.readForm_rest
  | next => exact answerBy_rest _ s.readNext_rest
  | all => exact answerBy_rest _ (readAllFrom_rest [] s)

theorem askAll_rest (calls : List StreamCall) (s : Lookahead) :
    ((s.askAll calls).1, (s.askAll calls).2.rest) = s.rest.askAll calls := by
  induction calls generalizing s with
  | nil => rfl
  | cons c calls ih =>
    have hask := s.ask_rest c
    have hrec := ih (s.ask c).2
    rw [askAll, TokenStream.askAll, ← hask, ← hrec]

/-! ## What became of the tokens -/

/-- What looking at a token and taking it keep, every call keeps. -/
theorem ask_keeps {I : Lookahead → Prop} (hpeek : ∀ s, I s → I s.peek.2)
    (hadvance : ∀ s, I s → I s.advance.2) (c : StreamCall) {s : Lookahead} (h : I s) :
    I (s.ask c).2 := by
  have hpeek' {s s' : Lookahead} {r : Except Error (Option Token)} (hs : I s)
      (heq : s.peek = (r, s')) : I s' := by
    have := hpeek s hs
    rwa [heq] at this
  have hform (stack : List SExpr.Frame) (s : Lookahead) (hs : I s) :
      I (readFormFrom stack s).2 := by
    fun_induction readFormFrom stack s with
    | case1 stack s t s' heq stack' _ ih => exact ih (hadvance s' (hpeek' hs heq))
    | case2 stack s t s' heq => exact hadvance s' (hpeek' hs heq)
    | case3 stack s t s' heq e taken =>
      cases taken
      · exact hpeek' hs heq
      · exact hadvance s' (hpeek' hs heq)
    | case4 stack s s' heq | case5 stack s e s' heq => exact hpeek' hs heq
  have hnext (s : Lookahead) (hs : I s) : I s.readNext.2 := by
    unfold readNext
    split
    · next heq => exact hform [] _ (hpeek' hs heq)
    · next heq => exact hpeek' hs heq
    · next heq => exact hpeek' hs heq
  have hall (done : List SExpr) (s : Lookahead) (hs : I s) : I (readAllFrom done s).2 := by
    fun_induction readAllFrom done s with
    | case1 done s x s' heq ih => exact ih (by simpa [heq] using hnext s hs)
    | case2 done s s' heq | case3 done s e s' heq => simpa [heq] using hnext s hs
  cases c with
  | peek => exact hpeek s h
  | advance => exact hadvance s h
  | form => exact hform [] s h
  | next => exact hnext s h
  | all => exact hall [] s h

/-- **The tokens of a text are accounted for.** -/
structure Accounts (text : String) (s : Lookahead) : Prop where
  /-- None is lost, repeated or moved. -/
  tokens : s.taken ++ s.rest.pending = (lex text).1
  /-- At most one was looked at and not taken. -/
  single : s.buffer.length ≤ 1
  /-- As long as the lexer was not asked for more tokens than there are, it gave one each time, and
  what is wrong with the text is still to be said. -/
  good : s.asked ≤ (lex text).1.length →
    s.asked = s.taken.length + s.buffer.length ∧ s.rest.fault = (lex text).2
  /-- Otherwise the stream is at its end. -/
  past : (lex text).1.length < s.asked → s.rest = .ended

namespace Accounts

variable {text : String} {s : Lookahead}

theorem start (text : String) : Accounts text (start text) :=
  ⟨rfl, Nat.zero_le 1, fun _ => ⟨rfl, rfl⟩, nofun⟩

theorem length_eq (h : Accounts text s) :
    s.taken.length + (s.buffer.length + s.lexer.left.pending.length) = (lex text).1.length := by
  rw [← h.tokens, List.length_append, rest, List.length_append]

/-- The lexer gives a token: it was not asked for more than there are. -/
theorem asked_lt (h : Accounts text s) (hb : s.buffer = []) {t : Token} {l : Lexer}
    (hl : s.lexer.left = ⟨t :: l.left.pending, l.left.fault⟩) :
    s.asked = s.taken.length ∧ s.asked < (lex text).1.length ∧ l.left.fault = (lex text).2 := by
  have hlen := h.length_eq
  simp only [hb, hl, List.length_nil, List.length_cons] at hlen
  have hasked : s.asked ≤ (lex text).1.length := by
    by_contra hover
    have hended := h.past (by omega)
    simp [rest, hb, hl, TokenStream.ended] at hended
  obtain ⟨hgood, hfault⟩ := h.good hasked
  rw [hb, List.length_nil, Nat.add_zero] at hgood
  rw [rest, hl] at hfault
  exact ⟨hgood, by omega, hfault⟩

/-- The lexer gives no token: now it was asked for more than there are. -/
theorem atEnd (h : Accounts text s) (hb : s.buffer = []) (hl : s.lexer.left.pending = [])
    {l : Lexer} (hl' : l.left = .ended) :
    Accounts text { s with lexer := l, asked := s.asked + 1 } := by
  have hlen := h.length_eq
  simp only [hb, hl, List.length_nil, Nat.add_zero] at hlen
  have hasked : (lex text).1.length < s.asked + 1 := by
    by_contra hnot
    obtain ⟨hgood, -⟩ := h.good (by omega)
    rw [hb, List.length_nil] at hgood
    omega
  have hrest : rest { s with lexer := l, asked := s.asked + 1 } = .ended := by
    simp [rest, hb, hl', TokenStream.ended]
  refine ⟨?_, h.single, fun hle => absurd hasked (Nat.not_lt.2 hle), fun _ => hrest⟩
  rw [hrest, ← h.tokens]
  simp [rest, hb, hl, TokenStream.ended]

theorem peek (h : Accounts text s) : Accounts text s.peek.2 := by
  have hlooks := s.looks
  generalize s.peek = p at hlooks
  generalize s.advance = q at hlooks
  cases hlooks with
  | again => exact h
  | first hb hl =>
    obtain ⟨hasked, hlt, hfault⟩ := h.asked_lt hb hl
    refine ⟨?_, Nat.le_refl 1, fun _ => ⟨congrArg (· + 1) hasked, hfault⟩, fun hover => ?_⟩
    · rw [← h.tokens]
      simp [rest, hb, hl]
    · exact absurd hover (Nat.not_lt.2 hlt)
  | none hb hl hl' => exact h.atEnd hb (by rw [hl]; rfl) hl'
  | fault hb hl hl' => exact h.atEnd hb (by rw [hl]) hl'

theorem advance (h : Accounts text s) : Accounts text s.advance.2 := by
  have hlooks := s.looks
  generalize s.peek = p at hlooks
  generalize s.advance = q at hlooks
  cases hlooks with
  | @again t ts hb =>
    have hsingle := h.single
    rw [hb, List.length_cons] at hsingle
    refine ⟨?_, show ts.length ≤ 1 by omega, fun hle => ?_, fun hover => ?_⟩
    · rw [← h.tokens]
      simp [rest, hb]
    · obtain ⟨hasked, hfault⟩ := h.good hle
      rw [rest, hb] at hfault
      have hmoved : s.asked = (s.taken ++ [t]).length + ts.length := by
        rw [hasked, hb, List.length_append, List.length_cons, List.length_singleton]
        omega
      exact ⟨hmoved, hfault⟩
    · -- there was a token to be taken, so the stream was not at its end
      have hended := h.past hover
      simp [rest, hb, TokenStream.ended] at hended
  | first hb hl =>
    obtain ⟨hasked, hlt, hfault⟩ := h.asked_lt hb hl
    refine ⟨?_, h.single, fun _ => ⟨?_, hfault⟩, fun hover => absurd hover (Nat.not_lt.2 hlt)⟩
    · rw [← h.tokens]
      simp [rest, hb, hl]
    · simp [hasked, hb]
  | none hb hl hl' => exact h.atEnd hb (by rw [hl]; rfl) hl'
  | fault hb hl hl' => exact h.atEnd hb (by rw [hl]) hl'

/-- **One call** keeps the accounts. -/
theorem ask (h : Accounts text s) (c : StreamCall) : Accounts text (s.ask c).2 :=
  ask_keeps (fun _ => peek) (fun _ => advance) c h

/-- **Any calls** keep the accounts. -/
theorem askAll (h : Accounts text s) (calls : List StreamCall) :
    Accounts text (s.askAll calls).2 := by
  induction calls generalizing s with
  | nil => exact h
  | cons c calls ih => exact ih (h.ask c)

/-- A text with a fault has it said when the lexer was asked for more tokens than there are. -/
theorem fault_eq_none_iff (h : Accounts text s) (hfault : (lex text).2 ≠ none) :
    s.rest.fault = none ↔ (lex text).1.length < s.asked := by
  constructor
  · intro hsaid
    by_contra hnot
    exact hfault ((h.good (by omega)).2.symm.trans hsaid)
  · intro hover
    rw [h.past hover]
    rfl

/-- **A fault of the text is said** by the call in which the lexer is asked for the token after the
last good one. -/
theorem said_iff (h : Accounts text s) (c : StreamCall) {fault : Malformed}
    (hlexical : fault.isLexical = true) :
    (s.ask c).1 = .error fault.toError ↔ (lex text).2 = some fault ∧
      s.asked ≤ (lex text).1.length ∧ (lex text).1.length < (s.ask c).2.asked := by
  have hanswer : (s.ask c).1 = (s.rest.ask c).1 := congrArg Prod.fst (s.ask_rest c)
  have hafter : (s.ask c).2.rest = (s.rest.ask c).2 := congrArg Prod.snd (s.ask_rest c)
  rw [hanswer, (TokenStream.settles_ask c s.rest).said fault hlexical, ← hafter]
  constructor
  · rintro ⟨hbefore, hdropped⟩
    have hle : s.asked ≤ (lex text).1.length := by
      by_contra hover
      rw [h.past (by omega)] at hbefore
      cases hbefore
    have htext : (lex text).2 = some fault := (h.good hle).2.symm.trans hbefore
    exact ⟨htext, hle, ((h.ask c).fault_eq_none_iff (by simp [htext])).1 hdropped⟩
  · rintro ⟨htext, hle, hlt⟩
    exact ⟨(h.good hle).2.trans htext, ((h.ask c).fault_eq_none_iff (by simp [htext])).2 hlt⟩

end Accounts

/-- Looking at a token takes none. -/
theorem taken_peek (s : Lookahead) : s.peek.2.taken = s.taken := by
  have hlooks := s.looks
  generalize s.peek = p at hlooks
  generalize s.advance = q at hlooks
  cases hlooks <;> rfl

/-- **A stream loses, repeats and moves no token**, whatever it was asked for and whatever came of
it.  The tokens that were taken, the one that was looked at and those that the lexer has not given
yet are the tokens of the text, in this order, and the answers are those of the stream that has all
tokens at hand.  To look at a token takes none.

A fault of the text is said by the call in which the lexer is first asked for the token after the
last good one, and by no other, so once at most.  From then on the stream is at its end. -/
theorem askAll_exact (text : String) (calls : List StreamCall) :
    let answers := ((start text).askAll calls).1
    let s := ((start text).askAll calls).2
    let good := (lex text).1.length
    (s.taken ++ (s.buffer ++ s.lexer.left.pending) = (lex text).1 ∧ s.buffer.length ≤ 1) ∧
    (answers, s.rest) = (TokenStream.ofText text).askAll calls ∧
    ((s.ask .peek).2.taken = s.taken ∧ (s.ask .peek).2.rest.pending = s.rest.pending) ∧
    (∀ (c : StreamCall) (fault : Malformed), fault.isLexical = true →
      ((s.ask c).1 = .error fault.toError ↔
        (lex text).2 = some fault ∧ s.asked ≤ good ∧ good < (s.ask c).2.asked)) ∧
    answers.countP TokenStream.saysFault = (if (lex text).2 ≠ none ∧ good < s.asked then 1 else 0) ∧
    (good < s.asked → ∀ c : StreamCall, (s.ask c).1 = c.atEnd) := by
  intro answers s good
  have haccounts : Accounts text s := (Accounts.start text).askAll calls
  have hsame : (answers, s.rest) = (TokenStream.ofText text).askAll calls :=
    (start text).askAll_rest calls
  have hanswers : answers = ((TokenStream.ofText text).askAll calls).1 := congrArg Prod.fst hsame
  have hrest : s.rest = ((TokenStream.ofText text).askAll calls).2 := congrArg Prod.snd hsame
  refine ⟨⟨haccounts.tokens, haccounts.single⟩, hsame, ⟨s.taken_peek, ?_⟩, fun c fault hf => ?_, ?_,
    fun hover c => ?_⟩
  · -- before and after, what is left is all tokens but those taken
    have hpeek : (s.ask .peek).2.taken ++ (s.ask .peek).2.rest.pending = (lex text).1 :=
      (haccounts.ask .peek).tokens
    have htaken : (s.ask .peek).2.taken = s.taken := s.taken_peek
    rw [htaken, ← haccounts.tokens] at hpeek
    exact List.append_cancel_left hpeek
  · exact haccounts.said_iff c hf
  · have hcount := TokenStream.count_saysFault (s := .ofText text) (fun f => isLexical_of_lex) calls
    rw [← hanswers, ← hrest] at hcount
    rw [hcount]
    by_cases hfault : (lex text).2 = none
    · simp [TokenStream.ofText, hfault]
    · simp [TokenStream.ofText, hfault, haccounts.fault_eq_none_iff hfault, good]
  · have hanswer : (s.ask c).1 = (s.rest.ask c).1 := congrArg Prod.fst (s.ask_rest c)
    rw [hanswer, haccounts.past hover, TokenStream.ask_ended]

/-- The string is not closed, which is said when the token after `a` is wanted.  Asked again, the
stream is at its end. -/
theorem askAll_exact_unclosed :
    let calls : List StreamCall := [.peek, .advance, .peek]
    let answers := ((start "a \"b").askAll calls).1
    let s := ((start "a \"b").askAll calls).2
    (lex "a \"b").2 = some (.unexpectedChar 2 '\x22') ∧
      (lex "a \"b").1.length < s.asked ∧
      answers.map TokenStream.saysFault = [false, false, true] ∧
      (∀ c : StreamCall, (s.ask c).1 = c.atEnd) ∧
      ∀ c : StreamCall, (s.ask c).1 ≠ .error (Malformed.unexpectedChar 2 '\x22').toError := by
  intro calls answers s
  have hlexical : (Malformed.unexpectedChar 2 '\x22').isLexical = true := rfl
  have hasked : (lex "a \"b").1.length < s.asked := by decide
  obtain ⟨-, -, -, hsaid, -, hend⟩ := askAll_exact "a \"b" calls
  refine ⟨rfl, hasked, by decide, hend hasked, fun c hc => ?_⟩
  obtain ⟨-, hle, -⟩ := (hsaid c _ hlexical).1 hc
  exact absurd hasked (Nat.not_lt.2 hle)

end Lookahead

end Lambdict
