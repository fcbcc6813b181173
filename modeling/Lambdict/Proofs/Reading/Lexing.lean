import Lambdict.SExpr

/-!
# Lexing what is written

A piece of text *lexes* to tokens when the lexer gives these tokens for it wherever it stands, and
goes on between tokens with the rest (`Lexes`).  What stands after it must not prolong its last
token, which is so when it begins with no character of a symbol (`Delimits`).  Pieces that lex can
be put one after the other (`Lexes.append`), so the tokens of a printed text are read off its parts.

The other way round, every symbol that the lexer gives is written as symbols can be written
(`SymbolText`, `lex_spelled`).
-/

namespace Lambdict

/-- **The characters of a symbol token**: at least one, none of them ends a symbol, and they do not
begin a block comment. -/
structure SymbolText (cs : List Char) : Prop where
  nonempty : cs ≠ []
  chars : ∀ c ∈ cs, isSymbolChar c = true
  noComment : ∀ rest, cs ≠ '#' :: '|' :: rest

instance (cs : List Char) : Decidable (SymbolText cs) :=
  decidable_of_iff (cs ≠ [] ∧ cs.all isSymbolChar = true ∧ cs.take 2 ≠ ['#', '|']) <| by
    constructor
    · rintro ⟨hne, hchars, htake⟩
      refine ⟨hne, List.all_eq_true.1 hchars, ?_⟩
      rintro rest rfl
      exact htake rfl
    · rintro ⟨hne, hchars, hcomment⟩
      refine ⟨hne, List.all_eq_true.2 hchars, fun htake => hcomment (cs.drop 2) ?_⟩
      rw [← List.take_append_drop 2 cs, htake]
      rfl

/-! ## Symbols that are read -/

/-- What is read of a token so far is written as its kind allows. -/
def Mode.Spelled : Mode → Prop
  | .symbol read => SymbolText read.reverse
  | _ => True

/-- A symbol token is written as symbols can be. -/
def Token.Spelled : Token → Prop
  | .symbol text => SymbolText text.toList
  | _ => True

theorem isSymbolChar_of_begin {c : Char} (hblank : Text.isBlank c = false) (hsemi : c ≠ ';')
    (hquote : c ≠ '\x27') (hopen : ¬ (c = '(' ∨ c = '[')) (hclose : ¬ (c = ')' ∨ c = ']'))
    (hmark : c ≠ '\x22') : isSymbolChar c = true := by
  rw [not_or] at hopen hclose
  simp [isSymbolChar, hblank, hsemi, hquote, hopen, hclose, hmark]

theorem Mode.begin_spelled (i : Nat) (c : Char) :
    (begin i c).1.Spelled ∧ ∀ t ∈ (begin i c).2, t.Spelled := by
  unfold begin
  split
  · simp [Spelled]
  next hblank =>
  split
  · simp [Spelled]
  next hsemi =>
  split
  · simp [Spelled, Token.Spelled]
  next hquote =>
  split
  · simp [Spelled, Token.Spelled]
  next hopen =>
  split
  · simp [Spelled, Token.Spelled]
  next hclose =>
  split
  · simp [Spelled]
  next hmark =>
  have hc := isSymbolChar_of_begin (by simpa using hblank) hsemi hquote hopen hclose hmark
  exact ⟨⟨by simp, by simp [hc], by simp⟩, fun _ ht => nomatch ht⟩

theorem SymbolText.snoc {cs : List Char} {c : Char} (h : SymbolText cs)
    (hc : isSymbolChar c = true) (hopen : ¬ (cs = ['#'] ∧ c = '|')) :
    SymbolText (cs ++ [c]) := by
  refine ⟨by simp, ?_, ?_⟩
  · intro d hd
    rcases List.mem_append.1 hd with hd | hd
    · exact h.chars d hd
    · rwa [List.mem_singleton.1 hd]
  · -- a text of two characters or more begins a comment already without its last
    intro rest heq
    match cs, h with
    | [], h => exact h.nonempty rfl
    | [a], _ =>
      obtain ⟨rfl, htail⟩ := List.cons.inj heq
      exact hopen ⟨rfl, (List.cons.inj htail).1⟩
    | a :: b :: cs, h =>
      obtain ⟨rfl, htail⟩ := List.cons.inj heq
      obtain ⟨rfl, -⟩ := List.cons.inj htail
      exact h.noComment cs rfl

theorem Mode.step_spelled (i : Nat) (c : Char) {m : Mode} (hm : m.Spelled) :
    (m.step i c).1.Spelled ∧ ∀ t ∈ (m.step i c).2, t.Spelled := by
  cases m with
  | between => exact begin_spelled i c
  | symbol read =>
    rw [step]
    split
    · exact ⟨trivial, fun _ ht => nomatch ht⟩
    next hopen =>
    split
    · next hc =>
      refine ⟨?_, fun _ ht => nomatch ht⟩
      have hnext : SymbolText (read.reverse ++ [c]) := by
        refine SymbolText.snoc hm hc fun h => hopen ⟨?_, h.2⟩
        simpa using congrArg List.reverse h.1
      simpa [Spelled] using hnext
    · obtain ⟨hmode, htokens⟩ := begin_spelled i c
      refine ⟨hmode, List.forall_mem_cons.2 ⟨?_, htokens⟩⟩
      have hread : SymbolText read.reverse := hm
      simpa [Token.Spelled] using hread
  | string start read escaped =>
    simp only [step]
    split
    · exact ⟨trivial, fun _ ht => nomatch ht⟩
    split
    · exact ⟨trivial, by simp [Token.Spelled]⟩
    · exact ⟨trivial, fun _ ht => nomatch ht⟩
  | line =>
    simp only [step]
    split <;> exact ⟨trivial, fun _ ht => nomatch ht⟩
  | block outer half =>
    simp only [step]
    split
    · exact ⟨trivial, fun _ ht => nomatch ht⟩
    split
    · split <;> exact ⟨trivial, fun _ ht => nomatch ht⟩
    · exact ⟨trivial, fun _ ht => nomatch ht⟩

theorem lexFrom_spelled {m : Mode} (hm : m.Spelled) (i : Nat) (cs : List Char) :
    ∀ t ∈ (lexFrom m i cs).1, t.Spelled := by
  induction cs generalizing m i with
  | nil =>
    cases m with
    | symbol read =>
      have hread : SymbolText read.reverse := hm
      simpa [lexFrom, Mode.finish, Token.Spelled] using hread
    | _ => simp [lexFrom, Mode.finish]
  | cons c cs ih =>
    obtain ⟨hmode, htokens⟩ := Mode.step_spelled i c hm
    intro t ht
    rcases List.mem_append.1 ht with ht | ht
    · exact htokens t ht
    · exact ih hmode (i + 1) t ht

/-- **Every symbol that the lexer gives is written as symbols can be.** -/
theorem lex_spelled (s : String) : ∀ t ∈ (lex s).1, t.Spelled :=
  lexFrom_spelled (m := .between) trivial 0 s.toList

/-! ## Pieces of text -/

/-- What stands here prolongs no symbol before it. -/
def Delimits (rest : List Char) : Prop :=
  ∀ c ∈ rest.head?, isSymbolChar c = false

theorem Delimits.nil : Delimits [] := fun _ h => nomatch h

theorem Delimits.cons {c : Char} (hc : isSymbolChar c = false) (cs : List Char) :
    Delimits (c :: cs) := by
  intro d hd
  cases hd
  exact hc

theorem Delimits.append {cs rest : List Char} (hc : Delimits cs) (hr : Delimits rest) :
    Delimits (cs ++ rest) := by
  cases cs with
  | nil => exact hr
  | cons c cs => exact .cons (hc c rfl) _

/-- A piece of text that lexes to tokens before a given rest. -/
def LexesBefore (rest cs : List Char) (ts : List Token) : Prop :=
  ∀ i, lexFrom .between i (cs ++ rest) =
    (ts ++ (lexFrom .between (i + cs.length) rest).1, (lexFrom .between (i + cs.length) rest).2)

/-- **A piece of text that lexes to tokens**, wherever it stands and whatever delimits it. -/
def Lexes (cs : List Char) (ts : List Token) : Prop :=
  ∀ i rest, Delimits rest → lexFrom .between i (cs ++ rest) =
    (ts ++ (lexFrom .between (i + cs.length) rest).1, (lexFrom .between (i + cs.length) rest).2)

/-- A character that completes no token. -/
theorem lexFrom_cons {m m' : Mode} {i : Nat} {c : Char} (h : m.step i c = (m', []))
    (cs : List Char) : lexFrom m i (c :: cs) = lexFrom m' (i + 1) cs := by
  rw [lexFrom, h]
  rfl

theorem Lexes.nil : Lexes [] [] :=
  fun _ _ _ => rfl

/-- Pieces one after the other, of which the second does not prolong the first. -/
theorem Lexes.append {cs ds : List Char} {ts us : List Token} (hc : Lexes cs ts)
    (hd : Lexes ds us) (hdelim : Delimits ds) : Lexes (cs ++ ds) (ts ++ us) := by
  intro i rest hrest
  rw [List.append_assoc, hc i _ (hdelim.append hrest), hd _ rest hrest, List.append_assoc,
    List.length_append, Nat.add_assoc]

/-- A character that is a token by itself, or none, in front of a piece. -/
theorem Lexes.cons {c : Char} (us : List Token) (hc : ∀ i, Mode.begin i c = (.between, us))
    {cs : List Char} {ts : List Token} (h : Lexes cs ts) : Lexes (c :: cs) (us ++ ts) := by
  intro i rest hrest
  have hlen : i + 1 + cs.length = i + (c :: cs).length := by
    rw [List.length_cons]
    omega
  rw [List.cons_append, lexFrom]
  simp only [Mode.step, hc, h (i + 1) rest hrest, hlen, List.append_assoc]

theorem Lexes.space {cs : List Char} {ts : List Token} (h : Lexes cs ts) : Lexes (' ' :: cs) ts :=
  h.cons [] fun _ => rfl

theorem Lexes.newline {cs : List Char} {ts : List Token} (h : Lexes cs ts) :
    Lexes ('\n' :: cs) ts :=
  h.cons [] fun _ => rfl

theorem Lexes.quote {cs : List Char} {ts : List Token} (h : Lexes cs ts) :
    Lexes ('\x27' :: cs) (.quote :: ts) :=
  h.cons [.quote] fun _ => rfl

theorem Lexes.opening {cs : List Char} {ts : List Token} (h : Lexes cs ts) :
    Lexes ('(' :: cs) (.opening '(' :: ts) :=
  h.cons [.opening '('] fun _ => rfl

theorem Lexes.closing : Lexes [')'] [.closing ')'] :=
  Lexes.nil.cons [.closing ')'] fun _ => rfl

/-! ### Symbols -/

theorem begin_of_isSymbolChar {c : Char} (h : isSymbolChar c = true) (i : Nat) :
    Mode.begin i c = (.symbol [c], []) := by
  have hne : Text.isBlank c = false ∧ c ∉ ['(', ')', '[', ']', '\x27', '\x22', ';'] := by
    simpa [isSymbolChar] using h
  obtain ⟨hblank, hmem⟩ := hne
  simp only [List.mem_cons, not_or] at hmem
  simp [Mode.begin, hblank, hmem]

/-- A symbol that is begun is read to its end. -/
theorem lexFrom_symbol {read cs : List Char} (h : SymbolText (read.reverse ++ cs))
    (hread : read ≠ []) (i : Nat) {rest : List Char} (hrest : Delimits rest) :
    lexFrom (.symbol read) i (cs ++ rest) =
      (.symbol (String.ofList (read.reverse ++ cs)) ::
          (lexFrom .between (i + cs.length) rest).1,
        (lexFrom .between (i + cs.length) rest).2) := by
  induction cs generalizing read i with
  | nil =>
    cases rest with
    | nil => simp [lexFrom, Mode.finish]
    | cons c rest =>
      have hc : isSymbolChar c = false := hrest c rfl
      have hcomment : ¬ (read = ['#'] ∧ c = '|') := by
        rintro ⟨-, rfl⟩
        exact absurd hc (by decide)
      simp [lexFrom, Mode.step, hcomment, hc]
  | cons c cs ih =>
    have hc : isSymbolChar c = true := h.chars c (by simp)
    have hcomment : ¬ (read = ['#'] ∧ c = '|') := by
      rintro ⟨rfl, rfl⟩
      exact h.noComment cs rfl
    have hnext : (c :: read).reverse ++ cs = read.reverse ++ c :: cs := by simp
    have hlonger : SymbolText ((c :: read).reverse ++ cs) := hnext ▸ h
    have hrec := ih hlonger (by simp) (i + 1)
    have hlen : i + 1 + cs.length = i + (c :: cs).length := by
      rw [List.length_cons]
      omega
    rw [hnext, hlen] at hrec
    have hstep : (Mode.symbol read).step i c = (.symbol (c :: read), []) := by
      simp only [Mode.step, if_neg hcomment, hc, if_true]
    rw [List.cons_append, lexFrom_cons hstep, hrec]

/-- **A symbol lexes to its token.** -/
theorem Lexes.symbol {text : String} (h : SymbolText text.toList) :
    Lexes text.toList [.symbol text] := by
  intro i rest hrest
  have htext : String.ofList text.toList = text := String.ofList_toList
  match hcs : text.toList, h with
  | [], h => exact absurd rfl h.nonempty
  | c :: cs, h =>
    have hbegun : SymbolText ([c].reverse ++ cs) := h
    have hsymbol := lexFrom_symbol hbegun (by simp) (i + 1) hrest
    have hlen : i + 1 + cs.length = i + (c :: cs).length := by
      rw [List.length_cons]
      omega
    rw [hcs] at htext
    rw [hlen] at hsymbol
    have hstep : Mode.between.step i c = (.symbol [c], []) :=
      begin_of_isSymbolChar (h.chars c (by simp)) i
    rw [List.cons_append, lexFrom_cons hstep, hsymbol, ← htext]
    rfl

/-! ### Strings -/

/-- **What stands between the marks of a string**: a backslash takes the character after it along,
and no mark stands by itself. -/
inductive StringBody : List Char → Prop
  | nil : StringBody []
  | escape (c : Char) {cs : List Char} (h : StringBody cs) : StringBody ('\\' :: c :: cs)
  | plain {c : Char} {cs : List Char} (hescape : c ≠ '\\') (hmark : c ≠ '\x22')
      (h : StringBody cs) : StringBody (c :: cs)

/-- The inside of a string is read up to its closing mark. -/
theorem lexFrom_string {body : List Char} (h : StringBody body) (start : Nat) (read : List Char)
    (i : Nat) (rest : List Char) :
    lexFrom (.string start read false) i (body ++ '\x22' :: rest) =
      (.string (String.ofList (read.reverse ++ body)) ::
          (lexFrom .between (i + body.length + 1) rest).1,
        (lexFrom .between (i + body.length + 1) rest).2) := by
  induction h generalizing read i with
  | nil => simp [lexFrom, Mode.step]
  | @escape c cs _ ih =>
    -- two characters are read: the backslash and what it escapes
    have hrec := ih (c :: '\\' :: read) (i + 1 + 1)
    have hlen : i + 1 + 1 + cs.length = i + ('\\' :: c :: cs).length := by
      simp only [List.length_cons]
      omega
    have hread : (c :: '\\' :: read).reverse ++ cs = read.reverse ++ '\\' :: c :: cs := by simp
    rw [hlen, hread] at hrec
    rw [List.cons_append, List.cons_append, lexFrom_cons rfl, lexFrom_cons rfl]
    exact hrec
  | @plain c cs hescape hmark _ ih =>
    have hrec := ih (c :: read) (i + 1)
    have hlen : i + 1 + cs.length = i + (c :: cs).length := by
      rw [List.length_cons]
      omega
    have hread : (c :: read).reverse ++ cs = read.reverse ++ c :: cs := by simp
    rw [hlen, hread] at hrec
    have hstep : (Mode.string start read false).step i c =
        (.string start (c :: read) false, []) := by
      simp [Mode.step, hescape, hmark]
    rw [List.cons_append, lexFrom_cons hstep]
    exact hrec

/-- A string between its marks lexes to its token, whatever follows. -/
theorem lexesBefore_string {body : List Char} (h : StringBody body) (rest : List Char) :
    LexesBefore rest ('\x22' :: (body ++ ['\x22'])) [.string (String.ofList body)] := by
  intro i
  have hstring := lexFrom_string h i [] (i + 1) rest
  have hlen : i + 1 + body.length + 1 = i + ('\x22' :: (body ++ ['\x22'])).length := by
    simp only [List.length_append, List.length_cons, List.length_nil]
    omega
  rw [hlen] at hstring
  rw [List.cons_append, List.append_assoc, List.singleton_append, lexFrom_cons rfl]
  exact hstring

/-- The characters of a string as they are written between its marks. -/
def escaped (cs : List Char) : List Char :=
  cs.flatMap fun c => if c = '\\' ∨ c = '\x22' then ['\\', c] else [c]

theorem escaped_cons (c : Char) (cs : List Char) :
    escaped (c :: cs) = (if c = '\\' ∨ c = '\x22' then ['\\', c] else [c]) ++ escaped cs :=
  rfl

theorem unescape_escaped (cs : List Char) : SExpr.unescape (escaped cs) = cs := by
  induction cs with
  | nil => rfl
  | cons c cs ih =>
    rw [escaped_cons]
    split
    · next hc =>
      rcases hc with rfl | rfl <;> simp [SExpr.unescape, ih]
    · next hc =>
      have hc : c ≠ '\\' := fun h => hc (.inl h)
      rw [List.singleton_append, SExpr.unescape, ih]
      exact fun d ds hd _ => hc hd

theorem stringBody_escaped (cs : List Char) : StringBody (escaped cs) := by
  induction cs with
  | nil => exact .nil
  | cons c cs ih =>
    rw [escaped_cons]
    split
    · exact .escape c ih
    · next hc =>
      rw [not_or] at hc
      exact .plain hc.1 hc.2 ih

/-- **A string lexes to its token.** -/
theorem Lexes.string (s : String) :
    Lexes ('\x22' :: (escaped s.toList ++ ['\x22']))
      [.string (String.ofList (escaped s.toList))] :=
  fun i rest _ => lexesBefore_string (stringBody_escaped s.toList) rest i

end Lambdict
