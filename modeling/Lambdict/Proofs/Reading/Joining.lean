import Lambdict.Proofs.Reading.Streams
import Lambdict.Proofs.Reading.Syntax

/-!
# Texts one below the other

Two texts that can be read can be put one below the other, with a newline in between, and what is
read of the result is what is read of the first, followed by what is read of the second
(`lex_join`, `SExpr.readText_join`).  The same goes for their programs (`parseProgram_join`).

A newline ends whatever token or line comment it meets, just as the end of the text does
(`Mode.step_newline`); only inside a string or a block comment it does not, and a text that ends
there cannot be read anyway.  After it the lexer is between tokens, as at the beginning of a text.
It is not at position zero, but positions are only told in faults, so what is wrong with the second
text is wrong with the result too, further on (`Error.later`).  Tokens that spell forms one after
another are taken by the reader as these forms, and where it has no list open it goes on as if the
rest were all there is.

For programs there is one exception.  A text that is nothing but one form headed by `L32` is a
wrapped program, and stops being one when another form stands beside it (`Wrapped`).
-/

namespace Lambdict

/-! ## Faults further on -/

/-- The same fault further on in a text. -/
def Malformed.later (k : Nat) : Malformed → Malformed
  | .unexpectedChar position c => .unexpectedChar (position + k) c
  | fault => fault

/-- The same error further on in a text. -/
def Error.later (k : Nat) : Error → Error
  | .condition (.malformed fault) => .condition (.malformed (fault.later k))
  | e => e

/-- Positions are told in faults of the text only. -/
theorem Error.later_of_not_isLexical (k : Nat) {e : Error} (h : e.isLexical = false) :
    e.later k = e := by
  cases e with
  | abort a => rfl
  | condition c =>
    cases c with
    | malformed fault =>
      cases fault with
      | unexpectedChar position c => cases h
      | _ => rfl
    | _ => rfl

/-! ## Tokens -/

namespace Mode

/-- The same mode further on in a text. -/
def shift (k : Nat) : Mode → Mode
  | .string start read escaped => .string (start + k) read escaped
  | m => m

theorem begin_shift (k i : Nat) (c : Char) :
    begin (i + k) c = ((begin i c).1.shift k, (begin i c).2) := by
  simp only [begin, apply_ite Prod.fst, apply_ite Prod.snd, apply_ite (shift k)]
  repeat' split
  all_goals rfl

theorem step_shift (k i : Nat) (c : Char) (m : Mode) :
    (m.shift k).step (i + k) c = ((m.step i c).1.shift k, (m.step i c).2) := by
  cases m with
  | between => exact begin_shift k i c
  | symbol read =>
    show (Mode.symbol read).step (i + k) c = _
    simp only [step, begin_shift k i c]
    repeat' split
    all_goals rfl
  | string start read escaped =>
    show (Mode.string (start + k) read escaped).step (i + k) c = _
    simp only [step]
    repeat' split
    all_goals rfl
  | line =>
    show Mode.line.step (i + k) c = _
    simp only [step]
    split <;> rfl
  | block outer half =>
    show (Mode.block outer half).step (i + k) c = _
    simp only [step]
    repeat' split
    all_goals rfl

theorem finish_shift (k : Nat) (m : Mode) :
    (m.shift k).finish = (m.finish.1, m.finish.2.map (Malformed.later k)) := by
  cases m <;> rfl

/-- **A newline does what the end of a text does**, where a text may end. -/
theorem step_newline (i : Nat) {m : Mode} (h : m.finish.2 = none) :
    m.step i '\n' = (.between, m.finish.1) := by
  cases m with
  | between | line => rfl
  | symbol read =>
    have hcomment : ¬ (read = ['#'] ∧ '\n' = '|') := fun hc => absurd hc.2 (by decide)
    simp only [step, if_neg hcomment]
    rfl
  | string => cases h
  | block => cases h

end Mode

/-- What is lexed does not depend on the position, but for what a fault says. -/
theorem lexFrom_shift (k : Nat) (m : Mode) (i : Nat) (cs : List Char) :
    lexFrom (m.shift k) (i + k) cs =
      ((lexFrom m i cs).1, (lexFrom m i cs).2.map (Malformed.later k)) := by
  induction cs generalizing m i with
  | nil => exact Mode.finish_shift k m
  | cons c cs ih =>
    have hrec := ih (m.step i c).1 (i + 1)
    rw [Nat.add_right_comm] at hrec
    simp only [lexFrom, Mode.step_shift, hrec]

/-- After a newline a text goes on as if it began there. -/
theorem lexFrom_newline {m : Mode} {i : Nat} {cs : List Char} (h : (lexFrom m i cs).2 = none)
    (rest : List Char) :
    lexFrom m i (cs ++ '\n' :: rest) =
      ((lexFrom m i cs).1 ++ (lexFrom .between (i + cs.length + 1) rest).1,
        (lexFrom .between (i + cs.length + 1) rest).2) := by
  induction cs generalizing m i with
  | nil =>
    have hstep : m.step i '\n' = (.between, m.finish.1) := Mode.step_newline i h
    rw [List.nil_append]
    simp only [lexFrom, hstep]
    rfl
  | cons c cs ih =>
    have hlen : i + 1 + cs.length + 1 = i + (c :: cs).length + 1 := by
      rw [List.length_cons]
      omega
    rw [List.cons_append, lexFrom]
    simp only [ih (m := (m.step i c).1) h, hlen, lexFrom, List.append_assoc]

/-- **The tokens of two texts**, one below the other: what is wrong with the second is wrong with
both. -/
theorem lex_join {s : String} (hs : (lex s).2 = none) (t : String) :
    lex (s ++ "\n" ++ t) =
      ((lex s).1 ++ (lex t).1, (lex t).2.map (Malformed.later (s.length + 1))) := by
  have htext : (s ++ "\n" ++ t).toList = s.toList ++ '\n' :: t.toList := by simp
  have hshift := lexFrom_shift (s.length + 1) .between 0 t.toList
  have hpos : 0 + (s.length + 1) = 0 + s.toList.length + 1 := by
    rw [String.length_toList, Nat.add_assoc]
  rw [hpos] at hshift
  have hrest : lexFrom .between (0 + s.toList.length + 1) t.toList = _ := hshift
  rw [lex, htext, lexFrom_newline hs, hrest]
  rfl

/-! ## Forms -/

section

variable (fault : Option Malformed) (stack : List SExpr.Frame) (done : List SExpr)

/-- Forms that were read before stay in front of what is read next. -/
theorem readAllFrom_done (ts : List Token) :
    (TokenStream.readAllFrom fault stack done ts).1 =
      (TokenStream.readAllFrom fault stack [] ts).1.map (done.reverse ++ ·) := by
  induction ts generalizing stack done with
  | nil =>
    cases fault with
    | some f => rfl
    | none =>
      simp only [TokenStream.readAllFrom, TokenStream.atEnd]
      split
      · simp [Except.map]
      · rfl
  | cons t ts ih =>
    simp only [TokenStream.readAllFrom]
    cases SExpr.feed t stack with
    | shift stack' => exact ih stack' done
    | form x =>
      have hcons := ih [] (x :: done)
      have hone := ih [] [x]
      simp only [hcons, hone]
      cases (TokenStream.readAllFrom fault [] [] ts).1 <;> simp [Except.map]
    | refuse e taken => rfl

/-- What is read of tokens depends on where they stand only in what a fault of the text says. -/
theorem readAllFrom_later (k : Nat) (ts : List Token) :
    (TokenStream.readAllFrom (fault.map (Malformed.later k)) stack done ts).1 =
      (TokenStream.readAllFrom fault stack done ts).1.mapError (Error.later k) := by
  induction ts generalizing stack done with
  | nil =>
    cases fault with
    | some f => rfl
    | none =>
      simp only [TokenStream.readAllFrom, TokenStream.atEnd, Option.map_none]
      split
      · rfl
      · have hend : (Error.condition (.malformed (SExpr.endFault stack))).isLexical = false :=
          SExpr.not_isLexical_endFault stack
        exact congrArg Except.error (Error.later_of_not_isLexical k hend).symm
  | cons t ts ih =>
    simp only [TokenStream.readAllFrom]
    cases hfeed : SExpr.feed t stack with
    | shift stack' => exact ih stack' done
    | form x => exact ih [] (x :: done)
    | refuse e taken =>
      have hrefused := SExpr.not_isLexical_of_feed hfeed
      exact congrArg Except.error (Error.later_of_not_isLexical k hrefused).symm

end

/-- **The forms of two texts**, one below the other. -/
theorem SExpr.readText_join {s : String} {xs : List SExpr} (hs : readText s = .ok xs)
    (t : String) :
    readText (s ++ "\n" ++ t) =
      ((readText t).map (xs ++ ·)).mapError (Error.later (s.length + 1)) := by
  obtain ⟨hlex, hxs⟩ := readText_eq_ok_iff.1 hs
  have hread : readText (s ++ "\n" ++ t) = (TokenStream.readAllFrom
      ((lex t).2.map (Malformed.later (s.length + 1))) [] [] ((lex s).1 ++ (lex t).1)).1 := by
    rw [readText, TokenStream.ofText, lex_join hlex]
    rfl
  -- behind the forms of the first text the reader has nothing open
  rw [hread, readAllFrom_of_spellsAll _ _ hxs, readAllFrom_later, readAllFrom_done]
  simp only [List.append_nil, List.reverse_reverse]
  rfl

/-- **Reading goes on below.**  A text that lexes to its end can have another text put below it,
with a newline in between: the tokens are those of the first followed by those of the second, and
the lexer fails if and only if it fails on the second alone, with the same fault further on.  If
forms are read of the first, then the two together are read if and only if the second is, as the
forms of the first followed by those of the second; what is wrong otherwise is what is wrong with
the second. -/
theorem reading_goes_on_below (s t : String) :
    ((lex s).2 = none →
      (lex (s ++ "\n" ++ t)).1 = (lex s).1 ++ (lex t).1 ∧
        (lex (s ++ "\n" ++ t)).2 = (lex t).2.map (Malformed.later (s.length + 1))) ∧
    ∀ xs, SExpr.readText s = .ok xs →
      (∀ zs, SExpr.readText (s ++ "\n" ++ t) = .ok zs ↔
        ∃ ys, SExpr.readText t = .ok ys ∧ zs = xs ++ ys) ∧
      ∀ e, SExpr.readText (s ++ "\n" ++ t) = .error e ↔
        ∃ e', SExpr.readText t = .error e' ∧ e = e'.later (s.length + 1) := by
  refine ⟨fun hs => ?_, fun xs hs => ?_⟩
  · rw [lex_join hs t]
    exact ⟨rfl, rfl⟩
  · rw [SExpr.readText_join hs t]
    cases SExpr.readText t with
    | ok ys =>
      have hjoined : ((Except.ok ys).map (xs ++ ·)).mapError (Error.later (s.length + 1)) =
        .ok (xs ++ ys) := rfl
      simp [hjoined, eq_comm]
    | error e' =>
      have hjoined : ((Except.error e').map (xs ++ ·)).mapError (Error.later (s.length + 1)) =
        .error (e'.later (s.length + 1)) := rfl
      simp [hjoined, eq_comm]

/-- The first text ends in a line comment and has a newline in a string, the second begins with a
string that is not closed. -/
theorem reading_goes_on_below_string :
    (lex "(a \"\n;\") ;").2 = none ∧
      SExpr.readText "(a \"\n;\") ;" = .ok [.list [.symbol "a", .string "\n;"]] ∧
      lex ("(a \"\n;\") ;" ++ "\n" ++ "\" b") =
        ([.opening '(', .symbol "a", .string "\n;", .closing ')'],
          some (.unexpectedChar 11 '\x22')) ∧
      SExpr.readText ("(a \"\n;\") ;" ++ "\n" ++ "\" b") =
        .error (.condition (.malformed (.unexpectedChar 11 '\x22'))) := by
  have hlex : (lex "(a \"\n;\") ;").2 = none := rfl
  have hread : SExpr.readText "(a \"\n;\") ;" = .ok [.list [.symbol "a", .string "\n;"]] := rfl
  obtain ⟨htokens, hforms⟩ := reading_goes_on_below "(a \"\n;\") ;" "\" b"
  obtain ⟨hfirst, hsecond⟩ := htokens hlex
  exact ⟨hlex, hread, Prod.ext hfirst hsecond, ((hforms _ hread).2 _).2 ⟨_, rfl, rfl⟩⟩

theorem ParsesAll.append {top : Bool} {ys : List SExpr} {fs : List Expr}
    (hy : ParsesAll top ys fs) : ∀ {xs : List SExpr} {es : List Expr}, ParsesAll top xs es →
      ParsesAll top (xs ++ ys) (es ++ fs)
  | [], [], .nil => hy
  | _ :: _, _ :: _, .cons h hs => .cons h (hy.append hs)

/-! ## Programs -/

/-- **A wrapped program**: a text that is nothing but one form headed by `L32`. -/
def Wrapped (text : String) : Prop :=
  ∃ forms, SExpr.readText text = .ok [.list (.symbol "L32" :: forms)]

theorem unwrapProgram_of_not_wrapped {text : String} {forms : List SExpr} (hw : ¬ Wrapped text)
    (h : SExpr.readText text = .ok forms) : unwrapProgram forms = forms := by
  unfold unwrapProgram
  split
  · exact absurd ⟨_, h⟩ hw
  · rfl

theorem not_wrapped_join {s t : String} {xs ys : List SExpr} (hs : SExpr.readText s = .ok xs)
    (ht : SExpr.readText t = .ok ys) (hws : ¬ Wrapped s) (hwt : ¬ Wrapped t) :
    ¬ Wrapped (s ++ "\n" ++ t) := by
  rintro ⟨forms, h⟩
  rw [SExpr.readText_join hs, ht] at h
  -- one of the two texts has that form for its only one
  rcases List.append_eq_singleton_iff.1 (Except.ok.inj h) with ⟨-, hy⟩ | ⟨hx, -⟩
  · exact hwt ⟨forms, ht.trans (congrArg Except.ok hy)⟩
  · exact hws ⟨forms, hs.trans (congrArg Except.ok hx)⟩

/-- **The program of two texts, one below the other.** -/
theorem parseProgram_join {s t : String} {p q : List Expr} (hws : ¬ Wrapped s) (hwt : ¬ Wrapped t)
    (hs : parseProgram s = .ok p) (ht : parseProgram t = .ok q) :
    parseProgram (s ++ "\n" ++ t) = .ok (p ++ q) := by
  obtain ⟨xs, hxs, hp⟩ := parseProgram_eq_ok_iff.1 hs
  obtain ⟨ys, hys, hq⟩ := parseProgram_eq_ok_iff.1 ht
  have hjoin : SExpr.readText (s ++ "\n" ++ t) = .ok (xs ++ ys) := by
    rw [SExpr.readText_join hxs, hys]
    rfl
  rw [unwrapProgram_of_not_wrapped hws hxs] at hp
  rw [unwrapProgram_of_not_wrapped hwt hys] at hq
  refine parseProgram_eq_ok_iff.2 ⟨xs ++ ys, hjoin, ?_⟩
  rw [unwrapProgram_of_not_wrapped (not_wrapped_join hxs hys hws hwt) hjoin]
  exact hq.append hp

end Lambdict
