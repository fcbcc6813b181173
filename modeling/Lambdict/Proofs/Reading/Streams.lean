import Lambdict.Proofs.Reading.Grammar

/-!
# Asking a stream of tokens

A stream is asked for tokens and for forms, in any order (`StreamCall`), and answers each call with
what it gives or with an error (`TokenStream.ask`).  The forms can be asked for one by one, too, and
all forms up to the end are what is got by asking so again and again
(`TokenStream.readAllFrom_nil`).

Two kinds of errors have to be kept apart.  A fault of the text is found by the lexer
(`Error.isLexical`); what the reader has against a token is none of these
(`SExpr.not_isLexical_of_feed`).  So an answer that says a fault of the text can only come from the
end of the stream, where the fault is said and dropped (`TokenStream.Settles`), and whatever a
stream is asked for, it says its fault at most once (`TokenStream.count_saysFault`).
-/

namespace Lambdict

/-! ## Faults of the text -/

/-- Whether a fault is one that the lexer finds. -/
def Malformed.isLexical : Malformed → Bool
  | .unexpectedChar .. | .unterminatedComment => true
  | _ => false

/-- Whether an error is a fault that the lexer finds. -/
def Error.isLexical : Error → Bool
  | .condition (.malformed fault) => fault.isLexical
  | _ => false

/-- What the lexer finds wrong with a text is a fault of its own. -/
theorem isLexical_of_lex {s : String} {fault : Malformed} (h : (lex s).2 = some fault) :
    fault.isLexical = true := by
  have hfinish (m : Mode) (hm : m.finish.2 = some fault) : fault.isLexical = true := by
    cases m <;> cases hm <;> rfl
  have hfrom (m : Mode) (i : Nat) (cs : List Char) (hcs : (lexFrom m i cs).2 = some fault) :
      fault.isLexical = true := by
    induction cs generalizing m i with
    | nil => exact hfinish m hcs
    | cons c cs ih => exact ih _ _ hcs
  exact hfrom .between 0 s.toList h

namespace SExpr

theorem not_isLexical_of_ofSymbol {text : String} {e : Error} (h : ofSymbol text = .error e) :
    e.isLexical = false := by
  unfold ofSymbol at h
  repeat' split at h
  all_goals cases h
  rfl

theorem not_isLexical_of_beginForm {t : Token} {stack : List Frame} {e : Error} {taken : Bool}
    (h : beginForm t stack = .refuse e taken) : e.isLexical = false := by
  cases t with
  | quote | opening c => cases h
  | closing c =>
    cases h
    rfl
  | string body => exact absurd h (complete_ne_refuse _ stack e taken)
  | symbol text =>
    simp only [beginForm] at h
    split at h
    · exact absurd h (complete_ne_refuse _ stack e taken)
    · next herror =>
      cases h
      exact not_isLexical_of_ofSymbol herror

/-- **What the reader has against a token** is no fault of the text. -/
theorem not_isLexical_of_feed {t : Token} {stack : List Frame} {e : Error} {taken : Bool}
    (h : feed t stack = .refuse e taken) : e.isLexical = false := by
  unfold feed at h
  split at h
  · split at h
    · exact absurd h (complete_ne_refuse _ _ e taken)
    split at h
    · split at h
      · cases h
        rfl
      · cases h
    · exact not_isLexical_of_beginForm h
  · split at h
    · exact absurd h (complete_ne_refuse _ _ e taken)
    · cases h
      rfl
  · exact not_isLexical_of_beginForm h

theorem not_isLexical_endFault (stack : List Frame) : (endFault stack).isLexical = false := by
  unfold endFault
  split <;> rfl

theorem complete_ne_shift_nil (x : SExpr) (stack : List Frame) : complete x stack ≠ .shift [] := by
  fun_induction complete x stack <;> simp_all

theorem beginForm_ne_shift_nil (t : Token) (stack : List Frame) :
    beginForm t stack ≠ .shift [] := by
  cases t with
  | symbol text =>
    simp only [beginForm]
    split
    · exact complete_ne_shift_nil _ stack
    · exact nofun
  | string body => exact complete_ne_shift_nil _ stack
  | _ => exact nofun

/-- While a form is not complete, something is open. -/
theorem feed_ne_shift_nil (t : Token) (stack : List Frame) : feed t stack ≠ .shift [] := by
  intro h
  unfold feed at h
  split at h
  · split at h
    · exact complete_ne_shift_nil _ _ h
    split at h
    · split at h <;> cases h
    · exact beginForm_ne_shift_nil _ _ h
  · split at h
    · exact complete_ne_shift_nil _ _ h
    · cases h
  · exact beginForm_ne_shift_nil _ _ h

end SExpr

/-! ## Calls -/

/-- What a stream can be asked for. -/
inductive StreamCall
  /-- The next token, which stays in the stream. -/
  | peek
  /-- The next token, taken from the stream. -/
  | advance
  /-- One form. -/
  | form
  /-- One form, if there is one before the end. -/
  | next
  /-- All forms up to the end. -/
  | all
deriving DecidableEq, Repr

/-- What a stream gives. -/
inductive StreamAnswer
  | token (t : Option Token)
  | form (x : SExpr)
  | next (x : Option SExpr)
  | forms (xs : List SExpr)

/-- What a stream that is at its end gives. -/
def StreamCall.atEnd : StreamCall → Except Error StreamAnswer
  | .peek | .advance => .ok (.token none)
  | .form => .error (.condition (.malformed .unexpectedEnd))
  | .next => .ok (.next none)
  | .all => .ok (.forms [])

/-- What comes of a call, as an answer. -/
def answerBy {α σ : Type} (kind : α → StreamAnswer) (r : Except Error α × σ) :
    Except Error StreamAnswer × σ :=
  (r.1.map kind, r.2)

namespace TokenStream

/-- Reads one form, if the stream is not at its end. -/
def readNext (s : TokenStream) : Except Error (Option SExpr) × TokenStream :=
  match s.peek with
  | (.ok (some _), s') => (s'.readForm.1.map some, s'.readForm.2)
  | (.ok none, s') => (.ok none, s')
  | (.error e, s') => (.error e, s')

/-- **Asks a stream.** -/
def ask : StreamCall → TokenStream → Except Error StreamAnswer × TokenStream
  | .peek, s => answerBy .token s.peek
  | .advance, s => answerBy .token s.advance
  | .form, s => answerBy .form s.readForm
  | .next, s => answerBy .next s.readNext
  | .all, s => answerBy .forms s.readAll

/-- **Asks a stream again and again**, whatever comes of it. -/
def askAll : List StreamCall → TokenStream → List (Except Error StreamAnswer) × TokenStream
  | [], s => ([], s)
  | c :: calls, s => ((s.ask c).1 :: (askAll calls (s.ask c).2).1, (askAll calls (s.ask c).2).2)

theorem ask_ended (c : StreamCall) : ended.ask c = (c.atEnd, ended) := by
  cases c <;> rfl

/-! ## Forms one by one -/

/-- Reading goes on after one form has been read. -/
def readAllAfter (done : List SExpr) (r : Except Error SExpr × TokenStream) :
    Except Error (List SExpr) × TokenStream :=
  match r.1 with
  | .ok x => readAllFrom r.2.fault [] (x :: done) r.2.pending
  | .error e => (.error e, r.2)

theorem readAllFrom_eq_after {fault : Option Malformed} {stack : List SExpr.Frame}
    {done : List SExpr} {ts : List Token} (h : stack ≠ [] ∨ ts ≠ []) :
    readAllFrom fault stack done ts = readAllAfter done (readFormFrom fault stack ts) := by
  induction ts generalizing stack with
  | nil =>
    have hstack : stack ≠ [] := h.resolve_right (· rfl)
    cases fault with
    | some f => rfl
    | none => simp [readAllFrom, readFormFrom, atEnd, readAllAfter, hstack]
  | cons t ts ih =>
    rw [readAllFrom, readFormFrom]
    cases hfeed : SExpr.feed t stack with
    | shift stack' =>
      refine ih (.inl ?_)
      rintro rfl
      exact SExpr.feed_ne_shift_nil t stack hfeed
    | form x => rfl
    | refuse e taken => rfl

/-- **All forms up to the end** are read by reading one form if there is one, and then all
others. -/
theorem readAllFrom_nil (s : TokenStream) (done : List SExpr) :
    readAllFrom s.fault [] done s.pending =
      match s.readNext with
      | (.ok (some x), s') => readAllFrom s'.fault [] (x :: done) s'.pending
      | (.ok none, s') => (.ok done.reverse, s')
      | (.error e, s') => (.error e, s') := by
  obtain ⟨ts, fault⟩ := s
  cases ts with
  | nil => cases fault <;> rfl
  | cons t ts =>
    have hne : t :: ts ≠ [] := by simp
    rw [readAllFrom_eq_after (.inr hne), readAllAfter]
    simp only [readNext, peek, readForm]
    cases (readFormFrom fault [] (t :: ts)).1 <;> rfl

/-- A form that is read takes tokens. -/
theorem length_of_readFormFrom {fault : Option Malformed} {stack : List SExpr.Frame}
    {ts : List Token} {x : SExpr} (h : (readFormFrom fault stack ts).1 = .ok x) :
    (readFormFrom fault stack ts).2.pending.length < ts.length := by
  induction ts generalizing stack with
  | nil => cases fault <;> cases h
  | cons t ts ih =>
    rw [readFormFrom] at h ⊢
    split at h
    · exact Nat.lt_succ_of_lt (ih h)
    · exact Nat.lt_succ_self ts.length
    · cases h

theorem length_of_readNext {s s' : TokenStream} {x : SExpr}
    (h : s.readNext = (.ok (some x), s')) : s'.pending.length < s.pending.length := by
  match s with
  | ⟨[], fault⟩ => cases fault <;> cases h
  | ⟨t :: ts, fault⟩ =>
    obtain ⟨hx, rfl⟩ := Prod.mk.inj h
    cases hform : (readFormFrom fault [] (t :: ts)).1 with
    | ok y => exact length_of_readFormFrom hform
    | error e =>
      rw [show (readForm ⟨t :: ts, fault⟩).1 = .error e from hform] at hx
      cases hx

/-! ## Faults are said at the end -/

/-- **What comes of a call on a stream with a fault**: the answer says the fault if and only if the
stream drops it, and only a stream that has come to its end does so. -/
structure Settles {α : Type} (fault : Option Malformed) (r : Except Error α × TokenStream) :
    Prop where
  said : ∀ f : Malformed, f.isLexical = true →
    (r.1 = .error f.toError ↔ fault = some f ∧ r.2.fault = none)
  kept : r.2.fault = fault ∨ r.2 = ended

section

variable {α β : Type} {fault : Option Malformed}

/-- The fault is left for later. -/
theorem Settles.of_kept {r : Except Error α × TokenStream} (hkept : r.2.fault = fault)
    (h : ∀ e, r.1 = .error e → e.isLexical = false) : Settles fault r := by
  refine ⟨fun f hf => ⟨fun hr => ?_, fun ⟨hs, hr⟩ => ?_⟩, .inl hkept⟩
  · exact absurd hf (by simpa [Malformed.toError, Error.isLexical] using h _ hr)
  · rw [hkept, hs] at hr
    cases hr

theorem Settles.atEnd {otherwise : Except Error α}
    (h : ∀ e, otherwise = .error e → e.isLexical = false) :
    Settles fault (atEnd fault otherwise) := by
  cases fault with
  | none => exact .of_kept rfl h
  | some found =>
    refine ⟨fun f _ => ?_, .inr rfl⟩
    simp [TokenStream.atEnd, ended, Malformed.toError]

theorem Settles.map {r : Except Error α × TokenStream} (h : Settles fault r) (g : α → β) :
    Settles fault (r.1.map g, r.2) := by
  refine ⟨fun f hf => ?_, h.kept⟩
  rw [← h.said f hf]
  cases r.1 <;> simp [Except.map]

theorem settles_peek (s : TokenStream) : Settles s.fault s.peek := by
  unfold peek
  split
  · exact .of_kept rfl nofun
  · exact .atEnd nofun

theorem settles_advance (s : TokenStream) : Settles s.fault s.advance := by
  unfold advance
  split
  · exact .of_kept rfl nofun
  · exact .atEnd nofun

theorem settles_readFormFrom (fault : Option Malformed) (stack : List SExpr.Frame)
    (ts : List Token) : Settles fault (readFormFrom fault stack ts) := by
  induction ts generalizing stack with
  | nil =>
    refine .atEnd fun e he => ?_
    cases he
    exact SExpr.not_isLexical_endFault stack
  | cons t ts ih =>
    rw [readFormFrom]
    split
    · exact ih _
    · exact .of_kept rfl nofun
    · next hfeed =>
      refine .of_kept rfl fun e he => ?_
      cases he
      exact SExpr.not_isLexical_of_feed hfeed

theorem settles_readNext (s : TokenStream) : Settles s.fault s.readNext := by
  obtain ⟨_ | ⟨t, ts⟩, fault⟩ := s
  · have hnext : readNext ⟨[], fault⟩ = TokenStream.atEnd fault (.ok none) := by
      cases fault <;> rfl
    rw [hnext]
    exact .atEnd nofun
  · exact (settles_readFormFrom fault [] (t :: ts)).map some

theorem settles_readAllFrom (fault : Option Malformed) (stack : List SExpr.Frame)
    (done : List SExpr) (ts : List Token) : Settles fault (readAllFrom fault stack done ts) := by
  induction ts generalizing stack done with
  | nil =>
    refine .atEnd fun e he => ?_
    split at he
    · cases he
    · cases he
      exact SExpr.not_isLexical_endFault stack
  | cons t ts ih =>
    rw [readAllFrom]
    split
    · exact ih _ _
    · exact ih _ _
    · next hfeed =>
      refine .of_kept rfl fun e he => ?_
      cases he
      exact SExpr.not_isLexical_of_feed hfeed

/-- **Whatever a stream is asked for**, it says the fault of the text exactly if it drops it. -/
theorem settles_ask (c : StreamCall) (s : TokenStream) : Settles s.fault (s.ask c) := by
  cases c with
  | peek => exact (settles_peek s).map _
  | advance => exact (settles_advance s).map _
  | form => exact (settles_readFormFrom s.fault [] s.pending).map _
  | next => exact (settles_readNext s).map _
  | all => exact (settles_readAllFrom s.fault [] [] s.pending).map _

end

/-- Whether an answer says a fault of the text. -/
def saysFault : Except Error StreamAnswer → Bool
  | .ok _ => false
  | .error e => e.isLexical

theorem saysFault_iff {r : Except Error StreamAnswer} :
    saysFault r = true ↔ ∃ f : Malformed, f.isLexical = true ∧ r = .error f.toError := by
  constructor
  · intro h
    match r, h with
    | .error (.condition (.malformed f)), h => exact ⟨f, h, rfl⟩
  · rintro ⟨f, hf, rfl⟩
    exact hf

/-- A call says the fault of a stream exactly if the stream drops it. -/
theorem saysFault_ask_iff (s : TokenStream) (h : ∀ f, s.fault = some f → f.isLexical = true)
    (c : StreamCall) :
    saysFault (s.ask c).1 = true ↔ s.fault ≠ none ∧ (s.ask c).2.fault = none := by
  have hsettles := settles_ask c s
  rw [saysFault_iff]
  constructor
  · rintro ⟨f, hf, hr⟩
    obtain ⟨hs, hdropped⟩ := (hsettles.said f hf).1 hr
    exact ⟨by simp [hs], hdropped⟩
  · rintro ⟨hs, hdropped⟩
    obtain ⟨f, hf⟩ := Option.ne_none_iff_exists'.1 hs
    exact ⟨f, h f hf, (hsettles.said f (h f hf)).2 ⟨hf, hdropped⟩⟩

theorem askAll_ended (calls : List StreamCall) : (ended.askAll calls).2 = ended := by
  induction calls with
  | nil => rfl
  | cons c calls ih =>
    rw [askAll, ask_ended]
    exact ih

/-- **A stream says its fault at most once**, and then has dropped it. -/
theorem count_saysFault {s : TokenStream} (h : ∀ f, s.fault = some f → f.isLexical = true)
    (calls : List StreamCall) :
    (s.askAll calls).1.countP saysFault =
      if s.fault ≠ none ∧ (s.askAll calls).2.fault = none then 1 else 0 := by
  induction calls generalizing s with
  | nil => simp [askAll]
  | cons c calls ih =>
    have hsaid := saysFault_ask_iff s h c
    rw [askAll, List.countP_cons]
    rcases (settles_ask c s).kept with hkept | hended
    · -- the fault is still to be said, or there is none
      have hnot : saysFault (s.ask c).1 = false := by
        rw [← Bool.not_eq_true, hsaid, hkept]
        exact fun hs => hs.1 hs.2
      rw [ih (hkept ▸ h), hkept, hnot]
      simp
    · rw [ih (by rw [hended]; exact nofun), hended, askAll_ended]
      simp only [hended] at hsaid
      by_cases hs : s.fault = none <;> simp_all [ended]

end TokenStream

end Lambdict
