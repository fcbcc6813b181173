import Lambdict.Proofs.Construct
import Lambdict.Proofs.Lookup
import Lambdict.Proofs.Messages.Failure

/-!
# What the strategies reword

Of what a message shows, a strategy rewrites parts of closures only (`Strategy.Rewords`).
*Construct* rewrites the literals in a body and nothing else (`Expr.textAll_expand`).  *Lookup* also
rewrites the calls of literals, and it draws names for its searches, so that what is drawn later has
other numbers.  Names without a number stay as they are (`Expr.Matches.text`), for an expansion has
the names of its program until they are renamed.

So messages are reworded only if they show a closure with a part of this kind.
-/

namespace Lambdict

/-- The parts of an expression's text that a strategy may rewrite: the beginning of a literal with
entries, and in the case of *lookup* also that of a call of the empty literal, and the mark of a
number in a name. -/
def Strategy.rewrites : Strategy → List String
  | .construct => ["(dict ("]
  | .lookup => ["(dict (", "((dict) ", "__"]

/-- Whether a text shows a part that a strategy may rewrite. -/
def Strategy.ShowsPart (strategy : Strategy) (s : String) : Prop :=
  ∃ part ∈ strategy.rewrites, Shows part s

/-- **The texts that a strategy may reword**: they show a closure, and then a part that it may
rewrite. -/
def Strategy.Rewords (strategy : Strategy) (s : String) : Prop :=
  ∃ before after, s = before ++ after ∧ Shows "Closure (" before ∧ strategy.ShowsPart after

instance (strategy : Strategy) (s : String) : Decidable (strategy.ShowsPart s) :=
  inferInstanceAs (Decidable (∃ part ∈ strategy.rewrites, Shows part s))

namespace Strategy

instance (strategy : Strategy) : Grows strategy.ShowsPart where
  append_right t := fun ⟨part, hmem, h⟩ => ⟨part, hmem, h.append_right t⟩
  append_left s := fun ⟨part, hmem, h⟩ => ⟨part, hmem, h.append_left s⟩

instance (strategy : Strategy) : Grows strategy.Rewords where
  append_right := by
    rintro _ t ⟨before, after, rfl, hclosure, hpart⟩
    exact ⟨before, after ++ t, String.append_assoc, hclosure,
      Grows.append_right t hpart⟩
  append_left := by
    rintro s _ ⟨before, after, rfl, hclosure, hpart⟩
    exact ⟨s ++ before, after, String.append_assoc.symm, hclosure.append_left s, hpart⟩

/-- What is reworded shows a part that is rewritten. -/
theorem Rewords.showsPart {strategy : Strategy} {s : String} (h : strategy.Rewords s) :
    strategy.ShowsPart s := by
  obtain ⟨before, after, rfl, -, hpart⟩ := h
  exact Grows.append_left before hpart

/-- What is shown after the parameters of a closure have begun says the same, unless it shows a part
that is rewritten. -/
theorem saysSame_closure {strategy : Strategy} {before s s' : String}
    (hclosure : Shows "Closure (" before) (h : SaysSame strategy.ShowsPart s s') :
    SaysSame strategy.Rewords (before ++ s) (before ++ s') :=
  fun hn => congrArg (before ++ ·) (h fun hpart => hn ⟨before, s, rfl, hclosure, hpart⟩)

end Strategy

/-- A text that shows a part that is rewritten need not say the same. -/
theorem SaysSame.of_shows {strategy : Strategy} {part s s' : String}
    (hpart : part ∈ strategy.rewrites) (h : Shows part s) :
    SaysSame strategy.ShowsPart s s' :=
  fun hn => absurd ⟨part, hpart, h⟩ hn

theorem shows_closure : Shows "Closure (" "<Closure (" := by decide

/-- A dictionary literal with entries shows itself. -/
theorem shows_dict (k : String) (e : Expr) (es : List (String × Expr)) :
    Shows "(dict (" (Expr.dict ((k, e) :: es)).text := by
  have htext : (Expr.dict ((k, e) :: es)).text.toList = "(dict (".toList ++
      (k ++ " " ++ e.text ++ ")" ++ Expr.textEntries es ++ ")").toList := by
    simp [Expr.text, Expr.textEntries]
  rw [Shows, htext]
  exact (List.prefix_append _ _).isInfix

/-! ## Expansions by *construct* -/

mutual

/-- **An expression without literals in its text has the same text when it is expanded.** -/
theorem Expr.text_expand : ∀ e : Expr,
    SaysSame Strategy.construct.ShowsPart e.text (e.expand .construct).text
  | .dict [] => .refl _
  | .dict ((k, e) :: es) => .of_shows (List.mem_singleton.2 rfl) (shows_dict k e es)
  | .app f es => by
    rw [Expr.expand_app_construct]
    have hf := (SaysSame.refl "(").append (Expr.text_expand f)
    exact (hf.append (Expr.textAll_expand es)).append (.refl ")")
  | .cond t c a => by
    have ht := (SaysSame.refl "(if ").append (Expr.text_expand t)
    have hc := (ht.append (.refl " ")).append (Expr.text_expand c)
    have ha := (hc.append (.refl " ")).append (Expr.text_expand a)
    exact ha.append (.refl ")")
  | .lambda ps b => (Expr.textAll_expand b).between _ ")"
  | .define x e => (Expr.text_expand e).between _ ")"
  | .quote d => (SaysSame.refl "'").append (Value.textIn_expand d true false)
  | .number _ | .boolean _ | .string _ | .var _ | .prim _ | .foreign _ => .refl _

theorem Expr.textAll_expand : ∀ es : List Expr,
    SaysSame Strategy.construct.ShowsPart (Expr.textAll es)
      (Expr.textAll (Expr.expandAll .construct es))
  | [] => .refl _
  | e :: es =>
    ((SaysSame.refl " ").append (Expr.text_expand e)).append (Expr.textAll_expand es)

theorem Value.textIn_expand : ∀ (v : Value) (quote tail : Bool),
    SaysSame Strategy.construct.ShowsPart (v.textIn quote tail)
      ((v.expand .construct).textIn quote tail)
  | .pair _ h t, quote, _ =>
    ((SaysSame.refl _).append (Value.textIn_expand h quote false)).append
      (Value.textIn_expand t quote true)
  | .closure _ _ b, _, tail => ((Expr.textAll_expand b).between _ ">").inChain tail
  | .dict _ es, _, tail =>
    ((SaysSame.intercalate " " (Value.textEntries_expand es)).between "#dict(" ")").inChain tail
  | .nothing, _, _ | .number _, _, _ | .boolean _, _, _ | .string _, _, _ | .symbol _, _, _
  | .empty, _, _ | .prim _, _, _ | .code _ _, _, _ | .sequence _ _, _, _ => .refl _

theorem Value.textEntries_expand : ∀ es : List (String × Value),
    List.Forall₂ (SaysSame Strategy.construct.ShowsPart) (Value.textEntries es)
      (Value.textEntries (Value.expandEntries .construct es))
  | [] => .nil
  | (_, v) :: es =>
    .cons ((Value.textIn_expand v false false).between _ ")") (Value.textEntries_expand es)

end

/-- **What *construct* rewords.** -/
theorem wording_construct : constructSimulation.Wording Strategy.construct.Rewords where
  closure := by
    rintro _ _ b ps _ ⟨rfl, rfl⟩
    have hbody := (Expr.textAll_expand b).between (" ".intercalate ps ++ ")") ">"
    simpa only [closureText, String.append_assoc] using
      Strategy.saysSame_closure shows_closure hbody
  arity := by
    rintro _ _ b ps _ ⟨rfl, rfl⟩ n
    exact .refl _
  literals := by
    intro W args args' hargs c c' hc hc'
    have hmap : List.Forall₂ Eq (args.map (Value.expand .construct)) args' :=
      List.forall₂_map_left_iff.2 (hargs.imp fun _ _ h => Eq.symm h)
    rw [List.forall₂_eq_eq_eq] at hmap
    rw [← hmap, Value.literals?_expand, hc] at hc'
    cases hc'
    rfl

/-! ## Expansions by *lookup* -/

theorem Value.Matches.literal?_error {expands : Prop} {W : World} {v v' : Value}
    (h : v.Matches (W.link expands) v') {c c' : Condition} (hc : v.literal? = .error c)
    (hc' : v'.literal? = .error c') : c' = c := by
  cases h with
  | plain =>
    rw [hc] at hc'
    cases hc'
    rfl
  | pair => cases hc
  | dict =>
    cases hc
    cases hc'
    rfl
  | closure _ hp hb =>
    -- only a body can be missing, and then it is missing on both sides
    obtain ⟨hproper, hproper'⟩ := hb.find?_proper
    simp only [Value.literal?, Expr.lambda?_of_sound hp.2.1 hproper] at hc
    simp only [Value.literal?, Expr.lambda?_of_sound hp.2.2.1 hproper'] at hc'
    split at hc <;> cases hc
    split at hc' <;> cases hc'
    rfl

theorem literals?_error_matching {expands : Prop} {W : World} {args args' : List Value}
    (hargs : List.Forall₂ ((matching expands).value W) args args') {c c' : Condition}
    (hc : Value.literals? args = .error c) (hc' : Value.literals? args' = .error c') : c' = c := by
  induction hargs generalizing c c' with
  | nil => exact nomatch hc
  | @cons v v' vs vs' hv _ ih =>
    have hhead := hv.literal?_agree
    simp only [Value.literals?] at hc hc'
    cases hl : v.literal? <;> cases hl' : v'.literal? <;> rw [hl, hl'] at hhead <;>
      rw [hl] at hc <;> rw [hl'] at hc' <;> cases hhead
    · cases hc
      cases hc'
      exact hv.literal?_error hl hl'
    · cases hls : Value.literals? vs <;> rw [hls] at hc <;> cases hc
      cases hls' : Value.literals? vs' <;> rw [hls'] at hc' <;> cases hc'
      exact ih hls hls'

/-- Names that look alike say the same: a number that was drawn is seen. -/
theorem NamedAlike.saysSame {x y : String} (h : NamedAlike x y) :
    SaysSame Strategy.lookup.ShowsPart x y := by
  rcases h with rfl | ⟨stem, n, rfl⟩
  · exact .refl _
  · have hmark : Shows "__" (NameSupply.numbered stem n) :=
      ((Shows.self "__").append_left stem).append_right _
    exact .of_shows (by simp [Strategy.rewrites]) hmark

theorem NamedAlike.intercalate {ps qs : List String} (h : List.Forall₂ NamedAlike ps qs) :
    SaysSame Strategy.lookup.ShowsPart (" ".intercalate ps) (" ".intercalate qs) :=
  .intercalate " " (h.imp fun _ _ h => h.saysSame)

/-- **A scope in which names look alike**, and parameters do. -/
structure Scope.NamedAlike (Γ : Scope) : Prop where
  names : ∀ x y, Γ.names x y → Lambdict.NamedAlike x y
  params : ∀ ps qs, Γ.params ps qs → List.Forall₂ Lambdict.NamedAlike ps qs

namespace Scope.NamedAlike

variable {Γ : Scope}

theorem base (W : World) : (W.link True).base.NamedAlike where
  names _ _ h := .inl h.1
  params _ _ h := h.2.2.2 trivial

theorem bind (h : Γ.NamedAlike) {ps qs : List String}
    (hps : List.Forall₂ Lambdict.NamedAlike ps qs) : (Γ.bind ps qs).NamedAlike where
  names x y := by
    rintro (hmem | ⟨-, -, hxy⟩)
    · exact (List.forall₂_iff_zip.1 hps).2 hmem
    · exact h.names x y hxy
  params := h.params

theorem after (h : Γ.NamedAlike) (e : Expr) : (Γ.after e).NamedAlike := by
  cases e with
  | define x e => exact h.bind (.cons (.inl rfl) .nil)
  | _ => exact h

end Scope.NamedAlike

theorem Value.textEntries_saysSame {P : String → Prop} [Grows P]
    {es es' : List (String × Value)} (hk : es.map Prod.fst = es'.map Prod.fst)
    (hv : List.Forall₂ (fun v v' => SaysSame P (v.textIn false false) (v'.textIn false false))
      (es.map Prod.snd) (es'.map Prod.snd)) :
    List.Forall₂ (SaysSame P) (Value.textEntries es) (Value.textEntries es') := by
  induction es generalizing es' with
  | nil =>
    obtain rfl := List.map_eq_nil_iff.1 hk.symm
    exact .nil
  | cons p es ih =>
    match es', hk, hv with
    | q :: es', hk, .cons hvalue hvalues =>
      obtain ⟨hkey, hkeys⟩ := List.cons.inj hk
      have htext := hvalue.between ("(" ++ p.1 ++ " ") ")"
      rw [hkey] at htext
      refine .cons ?_ (ih hkeys hvalues)
      rw [show p.1 = q.1 from hkey]
      exact htext

/-- Without entries the literal and the call have one text. -/
theorem text_call_dict_nil : (Desugar.call .dict []).text = (Expr.dict []).text := by
  simp [Desugar.call, Expr.text, Expr.textAll, Expr.textEntries, Primitive.name]

/-- The call of a literal shows a part that *lookup* may rewrite. -/
theorem showsPart_call (es : List (String × Expr)) (key : Expr) :
    Strategy.lookup.ShowsPart (Expr.app (.dict es) [key]).text := by
  cases es with
  | nil =>
    have htext : (Expr.app (.dict []) [key]).text.toList =
        "((dict) ".toList ++ (key.text ++ ")").toList := by
      simp [Expr.text, Expr.textAll, Expr.textEntries]
    refine ⟨"((dict) ", by simp [Strategy.rewrites], ?_⟩
    rw [Shows, htext]
    exact (List.prefix_append _ _).isInfix
  | cons p es =>
    refine ⟨"(dict (", by simp [Strategy.rewrites], ?_⟩
    rw [Expr.text]
    exact (((shows_dict p.1 p.2 es).append_left "(").append_right _).append_right ")"

variable {W : World}

mutual

/-- **Expressions that match in an expansion have the same text**, unless it shows a part that
*lookup* may rewrite. -/
theorem Expr.Matches.text {Γ : Scope} (hΓ : Γ.NamedAlike) {e e' : Expr} :
    e.Matches (W.link True) Γ e' → SaysSame Strategy.lookup.ShowsPart e.text e'.text
  | .number _ | .boolean _ | .string _ | .prim _ => .refl _
  | .var h => (hΓ.names _ _ h).saysSame
  | .cond ht hc ha => by
    have htext := (SaysSame.refl "(if ").append (ht.text hΓ)
    have hcons := (htext.append (.refl " ")).append (hc.text hΓ)
    exact ((hcons.append (.refl " ")).append (ha.text hΓ)).append (.refl ")")
  | .lambda hp hb => by
    have hps := hΓ.params _ _ hp
    have hnames := (NamedAlike.intercalate hps).between "(lambda (" ")"
    exact (hnames.append (hb.text (hΓ.bind hps))).append (.refl ")")
  | .app _ hf hes =>
    (((SaysSame.refl "(").append (hf.text hΓ)).append (hes.text hΓ)).append (.refl ")")
  | .define _ he => (he.text hΓ).between _ ")"
  | .quote hd => (SaysSame.refl "'").append (hd.text true false)
  | .dict hn _ _ => absurd trivial hn
  | @Expr.Matches.construct _ _ es vs _ hv => by
    cases es with
    | nil =>
      cases hv
      exact .of_eq (text_call_dict_nil)
    | cons p es => exact .of_shows (by simp [Strategy.rewrites]) (shows_dict p.1 p.2 es)
  | @Expr.Matches.search _ _ es _ key _ _ _ _ _ _ _ _ _ _ _ _ =>
    -- the search stands for the call of a literal
    fun hn => absurd (showsPart_call es key) hn

theorem Expr.MatchesSeq.text {Γ : Scope} (hΓ : Γ.NamedAlike) {es es' : List Expr} :
    Expr.MatchesSeq (W.link True) Γ es es' →
      SaysSame Strategy.lookup.ShowsPart (Expr.textAll es) (Expr.textAll es')
  | .nil => .refl _
  | .cons he hes =>
    ((SaysSame.refl " ").append (he.text hΓ)).append (hes.text (hΓ.after _))

theorem Expr.MatchesEach.text {Γ : Scope} (hΓ : Γ.NamedAlike) {es es' : List Expr} :
    Expr.MatchesEach (W.link True) Γ es es' →
      SaysSame Strategy.lookup.ShowsPart (Expr.textAll es) (Expr.textAll es')
  | .nil => .refl _
  | .cons he hes => ((SaysSame.refl " ").append (he.text hΓ)).append (hes.text hΓ)

theorem Value.Matches.text {v v' : Value} (quote tail : Bool) : v.Matches (W.link True) v' →
    SaysSame Strategy.lookup.ShowsPart (v.textIn quote tail) (v'.textIn quote tail)
  | .plain _ => .refl _
  | .pair _ hh ht =>
    ((SaysSame.refl _).append (hh.text quote false)).append (ht.text quote true)
  | .closure _ hp hb => by
    have hps := (Scope.NamedAlike.base W).params _ _ hp
    have hnames := (NamedAlike.intercalate hps).between "<Closure (" ")"
    exact ((hnames.append (hb.text ((Scope.NamedAlike.base W).bind hps))).append
      (.refl ">")).inChain tail
  | .dict _ hk hv =>
    ((SaysSame.intercalate " " (Value.textEntries_saysSame hk hv.text)).between
      "#dict(" ")").inChain tail

theorem Value.MatchesAll.text {vs vs' : List Value} : Value.MatchesAll (W.link True) vs vs' →
    List.Forall₂ (fun v v' => SaysSame Strategy.lookup.ShowsPart (v.textIn false false)
      (v'.textIn false false)) vs vs'
  | .nil => .nil
  | .cons hv hvs => .cons (hv.text false false) hvs.text

end

theorem Condition.message_closureArity (ps : List String) (n : Nat) :
    (Condition.closureArity ps n).message = "Closure (" ++ " ".intercalate ps ++ ") expects " ++
      Nat.repr ps.length ++ " arguments, got " ++ Nat.repr n :=
  rfl

/-- **What *lookup* rewords.** -/
theorem wording_matching : (matching True).Wording Strategy.lookup.Rewords where
  closure := by
    rintro W ps b qs b' ⟨hp, hb⟩
    have hps := (Scope.NamedAlike.base W).params _ _ hp
    have hbody := (hb.text ((Scope.NamedAlike.base W).bind hps)).between ")" ">"
    simpa only [closureText, String.append_assoc] using
      Strategy.saysSame_closure shows_closure ((NamedAlike.intercalate hps).append hbody)
  arity := by
    rintro W ps b qs b' ⟨hp, hb⟩ n
    have hps := (Scope.NamedAlike.base W).params _ _ hp
    have hnames := (NamedAlike.intercalate hps).append
      (.refl (") expects " ++ Nat.repr ps.length ++ " arguments, got " ++ Nat.repr n))
    simpa only [Condition.message_closureArity, String.append_assoc, hps.length_eq] using
      Strategy.saysSame_closure (Shows.self "Closure (") hnames
  literals hargs _ _ hc hc' := .of_eq (congrArg _ (literals?_error_matching hargs hc hc'))

end Lambdict
