import Lambdict.Proofs.Reading.Lexing
import Mathlib.Data.List.TakeWhile

/-!
# Gaps and tokens in turn

The lexer takes a text apart and leaves nothing out.  Up to its end, or up to where it cannot go on,
the text is a gap, a token, a gap and so on, with a gap at either end (`Alternates`).  A gap
consists of blank characters, line comments and closed block comments (`Gap`); a token stands as its
kind is written, and a symbol is as long as it can be (`Token.Stands`).

The lexer stops early in two cases only: at a string whose closing mark is missing, and at a block
comment that is not closed (`Stops`).

`lex_eq_iff` says that this describes the lexer fully.  One half follows the description and shows
that the lexer goes along with it, piece by piece (`lexesBefore_of_alternates`, `Stops.lexFrom_eq`).
The other half follows the text and finds a piece at the head of whatever is left of it
(`exists_alternates`).
-/

namespace Lambdict

/-! ## Block comments -/

/-- **What follows the opening mark of a block comment**, with so many others open around it, up to
the mark that closes the outermost one.  Marks are taken from left to right, so that no character
belongs to two of them. -/
inductive CommentBody : Nat → List Char → Prop
  | last : CommentBody 0 ['|', '#']
  | close {outer : Nat} {cs : List Char} (h : CommentBody outer cs) :
      CommentBody (outer + 1) ('|' :: '#' :: cs)
  | opening {outer : Nat} {cs : List Char} (h : CommentBody (outer + 1) cs) :
      CommentBody outer ('#' :: '|' :: cs)
  | other {outer : Nat} {c : Char} {cs : List Char} (hopen : ∀ ds, c :: cs ≠ '#' :: '|' :: ds)
      (hclose : ∀ ds, c :: cs ≠ '|' :: '#' :: ds) (h : CommentBody outer cs) :
      CommentBody outer (c :: cs)

theorem CommentBody.ne_nil {outer : Nat} {cs : List Char} (h : CommentBody outer cs) :
    cs ≠ [] := by
  cases h <;> simp

/-- Two characters that begin no text begin it neither when it goes on. -/
theorem ne_cons_cons_append {a b c : Char} {cs : List Char} (hne : cs ≠ [])
    (h : ∀ ds, c :: cs ≠ a :: b :: ds) (rest : List Char) :
    ∀ ds, c :: (cs ++ rest) ≠ a :: b :: ds := by
  intro ds heq
  cases cs with
  | nil => exact hne rfl
  | cons d cs =>
    obtain ⟨rfl, htail⟩ := List.cons.inj heq
    obtain ⟨rfl, -⟩ := List.cons.inj htail
    exact h cs rfl

/-- A character read before has no effect if it makes no mark with the next one. -/
theorem lexFrom_block_half {half : Option Char} {cs : List Char}
    (hopen : half = some '#' → ∀ ds, cs ≠ '|' :: ds)
    (hclose : half = some '|' → ∀ ds, cs ≠ '#' :: ds) (outer i : Nat) :
    lexFrom (.block outer half) i cs = lexFrom (.block outer none) i cs := by
  cases cs with
  | nil => rfl
  | cons c cs =>
    have hnopen : ¬ (half = some '#' ∧ c = '|') := fun h => hopen h.1 cs (h.2 ▸ rfl)
    have hnclose : ¬ (half = some '|' ∧ c = '#') := fun h => hclose h.1 cs (h.2 ▸ rfl)
    have hstep : (Mode.block outer half).step i c = (Mode.block outer none).step i c := by
      simp [Mode.step, hnopen, hnclose]
    rw [lexFrom, lexFrom, hstep]

/-- A character of a block comment that begins no mark. -/
theorem lexFrom_block_cons {c : Char} {cs : List Char} (hopen : ∀ ds, c :: cs ≠ '#' :: '|' :: ds)
    (hclose : ∀ ds, c :: cs ≠ '|' :: '#' :: ds) (outer i : Nat) :
    lexFrom (.block outer none) i (c :: cs) = lexFrom (.block outer none) (i + 1) cs := by
  have hstep : (Mode.block outer none).step i c =
      (.block outer (if c = '#' ∨ c = '|' then some c else none), []) := by
    simp [Mode.step]
  have hhalf (a : Char) (h : (if c = '#' ∨ c = '|' then some c else none) = some a) : c = a := by
    split at h
    · exact Option.some.inj h
    · cases h
  rw [lexFrom_cons hstep]
  refine lexFrom_block_half (fun h ds heq => ?_) (fun h ds heq => ?_) outer (i + 1)
  · exact hopen ds (by rw [hhalf _ h, heq])
  · exact hclose ds (by rw [hhalf _ h, heq])

/-- **A block comment is read up to the mark that closes it.** -/
theorem lexFrom_commentBody {outer : Nat} {cs : List Char} (h : CommentBody outer cs) (i : Nat)
    (rest : List Char) :
    lexFrom (.block outer none) i (cs ++ rest) = lexFrom .between (i + cs.length) rest := by
  have hlen (j k n : Nat) : j + k + n = j + (n + k) := by omega
  induction h generalizing i with
  | last => rfl
  | close _ ih | opening _ ih =>
    rw [List.cons_append, List.cons_append, lexFrom_cons rfl, lexFrom_cons rfl, ih,
      List.length_cons, List.length_cons, hlen i 1 1, hlen i]
  | other hopen hclose h ih =>
    rw [List.cons_append, lexFrom_block_cons (ne_cons_cons_append h.ne_nil hopen rest)
      (ne_cons_cons_append h.ne_nil hclose rest), ih, List.length_cons, hlen]

/-- A text goes on behind the end of a block comment, or the comment is not closed. -/
theorem commentBody_or_unterminated : ∀ (outer : Nat) (cs : List Char),
    (∃ body rest, cs = body ++ rest ∧ CommentBody outer body) ∨
      ∀ i, lexFrom (.block outer none) i cs = ([], some .unterminatedComment)
  | _, [] => .inr fun _ => rfl
  | outer, [c] => by
    refine .inr fun i => ?_
    rw [lexFrom_block_cons (by simp) (by simp)]
    rfl
  | outer, c :: d :: cs => by
    by_cases hopen : c = '#' ∧ d = '|'
    · obtain ⟨rfl, rfl⟩ := hopen
      rcases commentBody_or_unterminated (outer + 1) cs with ⟨body, rest, rfl, h⟩ | h
      · exact .inl ⟨_, rest, rfl, .opening h⟩
      · exact .inr fun i => h (i + 1 + 1)
    by_cases hclose : c = '|' ∧ d = '#'
    · obtain ⟨rfl, rfl⟩ := hclose
      cases outer with
      | zero => exact .inl ⟨_, cs, rfl, .last⟩
      | succ outer =>
        rcases commentBody_or_unterminated outer cs with ⟨body, rest, rfl, h⟩ | h
        · exact .inl ⟨_, rest, rfl, .close h⟩
        · exact .inr fun i => h (i + 1 + 1)
    have hnopen : ∀ ds, c :: d :: cs ≠ '#' :: '|' :: ds := by simp_all
    have hnclose : ∀ ds, c :: d :: cs ≠ '|' :: '#' :: ds := by simp_all
    rcases commentBody_or_unterminated outer (d :: cs) with ⟨body, rest, heq, h⟩ | h
    · rw [heq] at hnopen hnclose ⊢
      refine .inl ⟨c :: body, rest, rfl, .other (fun ds hds => ?_) (fun ds hds => ?_) h⟩
      · exact hnopen (ds ++ rest) (congrArg (· ++ rest) hds)
      · exact hnclose (ds ++ rest) (congrArg (· ++ rest) hds)
    · exact .inr fun i => (lexFrom_block_cons hnopen hnclose outer i).trans (h (i + 1))

/-! ## Strings -/

/-- A text goes on behind the closing mark of a string, or the string has none. -/
theorem stringBody_or_unexpected (start : Nat) : ∀ (cs read : List Char),
    (∃ body rest, cs = body ++ '\x22' :: rest ∧ StringBody body) ∨
      ∀ i, lexFrom (.string start read false) i cs = ([], some (.unexpectedChar start '\x22'))
  | [], _ => .inr fun _ => rfl
  | c :: cs, read => by
    by_cases hmark : c = '\x22'
    · subst hmark
      exact .inl ⟨[], cs, rfl, .nil⟩
    by_cases hescape : c = '\\'
    · subst hescape
      match cs with
      | [] => exact .inr fun _ => rfl
      | d :: cs =>
        rcases stringBody_or_unexpected start cs (d :: '\\' :: read) with ⟨body, rest, rfl, h⟩ | h
        · exact .inl ⟨_, rest, rfl, .escape d h⟩
        · exact .inr fun i => h (i + 1 + 1)
    · have hstep (i : Nat) : (Mode.string start read false).step i c =
          (.string start (c :: read) false, []) := by
        simp [Mode.step, hmark, hescape]
      rcases stringBody_or_unexpected start cs (c :: read) with ⟨body, rest, rfl, h⟩ | h
      · exact .inl ⟨_, rest, rfl, .plain hescape hmark h⟩
      · exact .inr fun i => (lexFrom_cons (hstep i) cs).trans (h (i + 1))

/-! ## Gaps -/

/-- **A piece of a gap**, before the rest of a text: a blank character, a line comment up to the end
of its line, or a closed block comment. -/
inductive GapPiece (rest : List Char) : List Char → Prop
  | blank {c : Char} (hc : Text.isBlank c = true) : GapPiece rest [c]
  | line {cs : List Char} (hcs : '\n' ∉ cs) (hend : ∀ c ∈ rest.head?, c = '\n') :
      GapPiece rest (';' :: cs)
  | block {cs : List Char} (h : CommentBody 0 cs) : GapPiece rest ('#' :: '|' :: cs)

/-- **A gap** before the rest of a text. -/
inductive Gap (rest : List Char) : List Char → Prop
  | nil : Gap rest []
  | cons {cs ds : List Char} (hp : GapPiece (ds ++ rest) cs) (h : Gap rest ds) :
      Gap rest (cs ++ ds)

theorem LexesBefore.append {rest cs ds : List Char} {ts us : List Token}
    (hc : LexesBefore (ds ++ rest) cs ts) (hd : LexesBefore rest ds us) :
    LexesBefore rest (cs ++ ds) (ts ++ us) := by
  intro i
  rw [List.append_assoc, hc i, hd (i + cs.length), List.append_assoc, List.length_append,
    Nat.add_assoc]

/-- A line comment is read up to the end of its line. -/
theorem lexFrom_line {cs rest : List Char} (hcs : '\n' ∉ cs) (hend : ∀ c ∈ rest.head?, c = '\n')
    (i : Nat) : lexFrom .line i (cs ++ rest) = lexFrom .between (i + cs.length) rest := by
  induction cs generalizing i with
  | nil =>
    cases rest with
    | nil => rfl
    | cons c rest =>
      obtain rfl := hend c rfl
      rfl
  | cons c cs ih =>
    obtain ⟨hc, hcs⟩ := not_or.1 (mt List.mem_cons.2 hcs)
    have hstep : Mode.line.step i c = (.line, []) := by simp [Mode.step, Ne.symm hc]
    rw [List.cons_append, lexFrom_cons hstep, ih hcs, List.length_cons]
    congr 1
    omega

theorem GapPiece.lexesBefore {rest cs : List Char} (h : GapPiece rest cs) :
    LexesBefore rest cs [] := by
  intro i
  cases h with
  | @blank c hc =>
    have hstep : Mode.between.step i c = (.between, []) := by simp [Mode.step, Mode.begin, hc]
    exact lexFrom_cons hstep rest
  | @line cs hcs hend =>
    rw [List.cons_append, lexFrom_cons rfl, lexFrom_line hcs hend, List.length_cons,
      Nat.add_right_comm]
    rfl
  | @block cs h =>
    rw [List.cons_append, List.cons_append, lexFrom_cons rfl, lexFrom_cons rfl,
      lexFrom_commentBody h, List.length_cons, List.length_cons]
    rw [show i + 1 + 1 + cs.length = i + (cs.length + 1 + 1) by omega]
    rfl

/-- A gap has no tokens. -/
theorem Gap.lexesBefore {rest cs : List Char} (h : Gap rest cs) : LexesBefore rest cs [] := by
  induction h with
  | nil => exact fun _ => rfl
  | cons hp _ ih => exact hp.lexesBefore.append ih

/-! ## Tokens -/

/-- **A token that stands in a text**, before the rest of it: written as its kind is, and a symbol
as long as it can be. -/
inductive Token.Stands (rest : List Char) : Token → Prop
  | quote : Stands rest .quote
  | opening {c : Char} (hc : c = '(' ∨ c = '[') : Stands rest (.opening c)
  | closing {c : Char} (hc : c = ')' ∨ c = ']') : Stands rest (.closing c)
  | string {body : String} (h : StringBody body.toList) : Stands rest (.string body)
  | symbol {text : String} (h : SymbolText text.toList) (hrest : Delimits rest) :
      Stands rest (.symbol text)

theorem Token.Stands.lexesBefore {rest : List Char} {t : Token} (h : t.Stands rest) :
    LexesBefore rest t.text.toList [t] := by
  intro i
  cases h with
  | quote => rfl
  | opening hc | closing hc => rcases hc with rfl | rfl <;> rfl
  | @string body h =>
    have htext : (Token.string body).text.toList = '\x22' :: (body.toList ++ ['\x22']) := by
      simp [Token.text]
    have hlexes := lexesBefore_string h rest i
    rwa [String.ofList_toList, ← htext] at hlexes
  | symbol h hrest => exact Lexes.symbol h i rest hrest

theorem Token.Stands.text_ne_nil {rest : List Char} {t : Token} (h : t.Stands rest) :
    t.text.toList ≠ [] := by
  cases h with
  | symbol h => exact h.nonempty
  | _ => simp [Token.text]

/-! ## Texts -/

/-- **Gaps and tokens in turn**, with a gap at either end, before the rest of a text. -/
inductive Alternates (rest : List Char) : List Char → List Token → Prop
  | gap {cs : List Char} (hg : Gap rest cs) : Alternates rest cs []
  | token {cs ds : List Char} {t : Token} {ts : List Token}
      (hg : Gap (t.text.toList ++ ds ++ rest) cs) (ht : t.Stands (ds ++ rest))
      (h : Alternates rest ds ts) : Alternates rest (cs ++ (t.text.toList ++ ds)) (t :: ts)

/-- **Where the lexer stops**, at a position, and what is wrong there: at the end of the text, at a
string without a closing mark, or at a block comment that is not closed. -/
inductive Stops (i : Nat) : List Char → Option Malformed → Prop
  | finish : Stops i [] none
  | string {cs : List Char} (h : ∀ body rest, StringBody body → cs ≠ body ++ '\x22' :: rest) :
      Stops i ('\x22' :: cs) (some (.unexpectedChar i '\x22'))
  | comment {cs : List Char} (h : ∀ body rest, CommentBody 0 body → cs ≠ body ++ rest) :
      Stops i ('#' :: '|' :: cs) (some .unterminatedComment)

/-! ### The lexer goes along with the description -/

/-- **The lexer gives the tokens** between the gaps. -/
theorem lexesBefore_of_alternates {rest cs : List Char} {ts : List Token}
    (h : Alternates rest cs ts) : LexesBefore rest cs ts := by
  induction h with
  | gap hg => exact hg.lexesBefore
  | token hg ht _ ih =>
    have hgap := hg.lexesBefore
    exact hgap.append (ht.lexesBefore.append ih)

theorem Stops.lexFrom_eq {i : Nat} {cs : List Char} {fault : Option Malformed}
    (h : Stops i cs fault) : lexFrom .between i cs = ([], fault) := by
  cases h with
  | finish => rfl
  | @string cs h =>
    rcases stringBody_or_unexpected i cs [] with ⟨body, rest, rfl, hbody⟩ | hlex
    · exact absurd rfl (h body rest hbody)
    · exact (lexFrom_cons rfl cs).trans (hlex (i + 1))
  | @comment cs h =>
    rcases commentBody_or_unterminated 0 cs with ⟨body, rest, rfl, hbody⟩ | hlex
    · exact absurd rfl (h body rest hbody)
    · exact (lexFrom_cons rfl _).trans ((lexFrom_cons rfl cs).trans (hlex (i + 1 + 1)))

/-! ### Every text is as described -/

/-- The longest run of characters of a kind at the head of a text. -/
theorem exists_run (p : Char → Bool) (cs : List Char) :
    ∃ run rest, cs = run ++ rest ∧ (∀ c ∈ run, p c = true) ∧ ∀ c ∈ rest.head?, p c = false := by
  refine ⟨cs.takeWhile p, cs.dropWhile p, List.takeWhile_append_dropWhile.symm, ?_, ?_⟩
  · exact fun c hc => List.mem_takeWhile_imp hc
  · intro c hc
    have hnot := List.head?_dropWhile_not p cs
    rw [Option.mem_def.1 hc] at hnot
    simpa using hnot

/-- A line comment goes up to the end of its line. -/
theorem exists_line (cs : List Char) :
    ∃ piece rest, ';' :: cs = piece ++ rest ∧ piece ≠ [] ∧ GapPiece rest piece := by
  obtain ⟨run, rest, rfl, hrun, hrest⟩ := exists_run (· ≠ '\n') cs
  refine ⟨';' :: run, rest, rfl, by simp, .line (fun hmem => ?_) fun c hc => ?_⟩
  · simpa using hrun '\n' hmem
  · simpa using hrest c hc

/-- A character of a symbol that opens no comment begins a symbol. -/
theorem exists_symbol {c : Char} {cs : List Char} (hc : isSymbolChar c = true)
    (hcomment : ∀ ds, c :: cs ≠ '#' :: '|' :: ds) :
    ∃ (t : Token) (rest : List Char), c :: cs = t.text.toList ++ rest ∧ t.Stands rest := by
  obtain ⟨run, rest, rfl, hrun, hrest⟩ := exists_run isSymbolChar cs
  have htext : (String.ofList (c :: run)).toList = c :: run := String.toList_ofList
  have hsymbol : SymbolText (c :: run) := by
    refine ⟨by simp, List.forall_mem_cons.2 ⟨hc, hrun⟩, fun ds hds => ?_⟩
    exact hcomment (ds ++ rest) (congrArg (· ++ rest) hds)
  refine ⟨.symbol (String.ofList (c :: run)), rest, ?_, .symbol ?_ hrest⟩
  · rw [Token.text, htext, List.cons_append]
  · rwa [htext]

/-- What is at the head of a text: the lexer stops, or a piece of a gap is there, or a token. -/
theorem stops_or_piece_or_token : ∀ cs : List Char,
    (∀ i, ∃ fault, Stops i cs fault) ∨
      (∃ piece rest, cs = piece ++ rest ∧ piece ≠ [] ∧ GapPiece rest piece) ∨
        ∃ (t : Token) (rest : List Char), cs = t.text.toList ++ rest ∧ t.Stands rest
  | [] => .inl fun _ => ⟨none, .finish⟩
  | c :: cs => by
    by_cases hblank : Text.isBlank c = true
    · exact .inr (.inl ⟨[c], cs, rfl, by simp, .blank hblank⟩)
    by_cases hsemi : c = ';'
    · exact .inr (.inl (hsemi ▸ exists_line cs))
    by_cases hquote : c = '\x27'
    · exact .inr (.inr ⟨.quote, cs, hquote ▸ rfl, .quote⟩)
    by_cases hopen : c = '(' ∨ c = '['
    · exact .inr (.inr ⟨.opening c, cs, by simp [Token.text], .opening hopen⟩)
    by_cases hclose : c = ')' ∨ c = ']'
    · exact .inr (.inr ⟨.closing c, cs, by simp [Token.text], .closing hclose⟩)
    by_cases hmark : c = '\x22'
    · subst hmark
      by_cases hstring : ∃ body rest, StringBody body ∧ cs = body ++ '\x22' :: rest
      · obtain ⟨body, rest, hbody, rfl⟩ := hstring
        refine .inr (.inr ⟨.string (String.ofList body), rest, by simp [Token.text], .string ?_⟩)
        rwa [String.toList_ofList]
      · exact .inl fun i => ⟨_, .string fun body rest hb heq => hstring ⟨body, rest, hb, heq⟩⟩
    have hc := isSymbolChar_of_begin (by simpa using hblank) hsemi hquote hopen hclose hmark
    by_cases hcomment : ∃ ds, c :: cs = '#' :: '|' :: ds
    · obtain ⟨ds, heq⟩ := hcomment
      rw [heq]
      by_cases hblock : ∃ body rest, CommentBody 0 body ∧ ds = body ++ rest
      · obtain ⟨body, rest, hbody, rfl⟩ := hblock
        exact .inr (.inl ⟨'#' :: '|' :: body, rest, rfl, by simp, .block hbody⟩)
      · exact .inl fun i => ⟨_, .comment fun body rest hb heq => hblock ⟨body, rest, hb, heq⟩⟩
    · exact .inr (.inr (exists_symbol hc fun ds heq => hcomment ⟨ds, heq⟩))

/-- A piece of a gap can stand before gaps and tokens in turn. -/
theorem Alternates.cons_piece {rest piece cs : List Char} {ts : List Token}
    (hp : GapPiece (cs ++ rest) piece) (h : Alternates rest cs ts) :
    Alternates rest (piece ++ cs) ts := by
  cases h with
  | gap hg => exact .gap (.cons hp hg)
  | @token ds us t ts hg ht h =>
    rw [List.append_assoc] at hp
    rw [← List.append_assoc]
    exact .token (.cons hp hg) ht h

/-- **Every text is gaps and tokens in turn**, up to where the lexer stops. -/
theorem exists_alternates (text : List Char) :
    ∃ cs rest ts, text = cs ++ rest ∧ Alternates rest cs ts ∧
      ∀ i, ∃ fault, Stops i rest fault := by
  rcases stops_or_piece_or_token text with hstops | ⟨piece, more, htext, hne, hp⟩ |
    ⟨t, more, htext, ht⟩
  · exact ⟨[], text, [], rfl, .gap .nil, hstops⟩
  · have hshorter : more.length < text.length := by
      have := List.length_pos_iff.2 hne
      rw [htext, List.length_append]
      omega
    obtain ⟨cs, rest, ts, rfl, hts, hstops⟩ := exists_alternates more
    exact ⟨piece ++ cs, rest, ts, by rw [htext, List.append_assoc], hts.cons_piece hp, hstops⟩
  · have hshorter : more.length < text.length := by
      have := List.length_pos_iff.2 ht.text_ne_nil
      rw [htext, List.length_append]
      omega
    obtain ⟨cs, rest, ts, rfl, hts, hstops⟩ := exists_alternates more
    exact ⟨t.text.toList ++ cs, rest, t :: ts, by rw [htext, List.append_assoc],
      .token .nil ht hts, hstops⟩
termination_by text.length

/-- **What the lexer makes of a text.**  It gives tokens and a fault exactly if the text is gaps and
these tokens in turn, up to where the lexer stops: at the end of the text without a fault, or with
that fault where a string or a block comment begins that never ends.  So no character is left out or
taken twice, and no other text is faulty. -/
theorem lex_eq_iff {s : String} {ts : List Token} {fault : Option Malformed} :
    lex s = (ts, fault) ↔
      ∃ cs rest, s.toList = cs ++ rest ∧ Alternates rest cs ts ∧ Stops cs.length rest fault := by
  have hlex {cs rest : List Char} {ts : List Token} {fault : Option Malformed}
      (h : Alternates rest cs ts) (hstops : Stops cs.length rest fault) :
      lexFrom .between 0 (cs ++ rest) = (ts, fault) := by
    rw [lexesBefore_of_alternates h 0, Nat.zero_add, hstops.lexFrom_eq, List.append_nil]
  constructor
  · intro h
    obtain ⟨cs, rest, us, htext, hus, hstops⟩ := exists_alternates s.toList
    obtain ⟨fault', hstops⟩ := hstops cs.length
    rw [lex, htext, hlex hus hstops] at h
    cases h
    exact ⟨cs, rest, htext, hus, hstops⟩
  · rintro ⟨cs, rest, htext, hts, hstops⟩
    rw [lex, htext, hlex hts hstops]

/-- A mark of a block comment opens none inside a symbol. -/
example : lex "a#|b #|c|#" = ([.symbol "a#|b"], none) := rfl

end Lambdict
