import Lambdict.Renaming
import Mathlib.Data.List.Nodup
import Mathlib.Data.List.Perm.Subperm

/-!
# Fresh names are new

A supply never gives a reserved name (`NameSupply.fresh_not_mem`): of one more candidates than there
are reserved names, one is free.  And since a name ends with its number, whatever its stem
(`NameSupply.numbered_inj`), names with different numbers differ.

So two things can be said of a name with respect to a supply.  A name is *covered* when the supply
will not give it any more (`NameSupply.Covers`): it is reserved, or its number, if it has one, is
used up.  A name is *drawn* between two moments of a supply (`NameSupply.Drawn`) when it was given
in between.  What is covered at a moment is different from all that is drawn later, and what was
drawn is covered from then on.
-/

namespace Lambdict

namespace NameSupply

/-! ## Numbers at the end of a name -/

/-- What stands before the digits of a number in a name. -/
def mark : Int → Char
  | .ofNat _ => '_'
  | .negSucc _ => '-'

/-- A numbered name ends in a mark and the digits of its number. -/
theorem toList_numbered (stem : String) (n : Int) :
    ∃ cs, (numbered stem n).toList = cs ++ mark n :: Nat.toDigits 10 n.natAbs := by
  cases n with
  | ofNat n =>
    refine ⟨stem.toList ++ ['_'], ?_⟩
    simp [numbered, Number.intText, mark]
  | negSucc n =>
    refine ⟨stem.toList ++ ['_', '_'], ?_⟩
    simp [numbered, Number.intText, mark]

/-- The mark before a number is no digit, so one sees where the number begins. -/
theorem mark_not_digit (n : Int) : (mark n).isDigit = false := by
  cases n <;> rfl

/-- Where a text ends in digits, its last run of digits is known from the text. -/
theorem last_run_eq {p : Char → Bool} {cs cs' ds ds' : List Char} {c c' : Char}
    (h : cs ++ c :: ds = cs' ++ c' :: ds') (hc : p c = false) (hc' : p c' = false)
    (hds : ∀ d ∈ ds, p d = true) (hds' : ∀ d ∈ ds', p d = true) : c = c' ∧ ds = ds' := by
  have hrun (cs ds : List Char) (c : Char) (hc : p c = false) (hds : ∀ d ∈ ds, p d = true) :
      (cs ++ c :: ds).reverse.takeWhile p = ds.reverse := by
    have hrev : (cs ++ c :: ds).reverse = ds.reverse ++ c :: cs.reverse := by simp
    rw [hrev, List.takeWhile_append_of_pos fun d hd => hds d (List.mem_reverse.1 hd)]
    simp [hc]
  have heq : ds = ds' := by
    have := hrun cs ds c hc hds
    rw [h, hrun cs' ds' c' hc' hds'] at this
    exact (List.reverse_injective this).symm
  subst heq
  have hlen : cs.length = cs'.length := by
    have := congrArg List.length h
    simp at this
    exact this
  exact ⟨(List.cons.inj (List.append_inj_right h hlen)).1, rfl⟩

/-- **Names with the same number at their end are the only ones that can be equal.** -/
theorem numbered_inj {stem stem' : String} {m n : Int} (h : numbered stem m = numbered stem' n) :
    m = n := by
  obtain ⟨cs, hcs⟩ := toList_numbered stem m
  obtain ⟨cs', hcs'⟩ := toList_numbered stem' n
  have hdigit (k : Nat) : ∀ d ∈ Nat.toDigits 10 k, d.isDigit = true :=
    fun d hd => Nat.isDigit_of_mem_toDigits (by decide) (by decide) hd
  have heq := (hcs.symm.trans (congrArg String.toList h)).trans hcs'
  obtain ⟨hmark, hdigits⟩ :=
    last_run_eq heq (mark_not_digit m) (mark_not_digit n) (hdigit _) (hdigit _)
  have habs : m.natAbs = n.natAbs := by
    have := congrArg (fun ds => Nat.ofDigitChars 10 ds 0) hdigits
    simpa only [Nat.ofDigitChars_ten_toDigits] using this
  -- the mark before the digits tells the sign
  cases m <;> cases n
  · exact congrArg Int.ofNat habs
  · simp [mark] at hmark
  · simp [mark] at hmark
  · simpa using habs

/-- A numbered name has a text. -/
theorem numbered_ne_empty (stem : String) (n : Int) : numbered stem n ≠ "" := by
  intro h
  have := congrArg String.toList h
  simp [numbered] at this

/-! ## Freshness -/

/-- The first free number gives a free name, unless all numbers that were tried are taken. -/
theorem firstFree_cases (reserved : NameSet) (stem : String) (k : Nat) (n : Int) :
    numbered stem (firstFree reserved stem k n) ∉ reserved ∨
      ∀ i : Nat, i ≤ k → numbered stem (n + i) ∈ reserved := by
  induction k generalizing n with
  | zero =>
    by_cases h : numbered stem n ∈ reserved
    · refine .inr fun i hi => ?_
      obtain rfl : i = 0 := by omega
      simpa using h
    · exact .inl h
  | succ k ih =>
    simp only [firstFree]
    split
    next h =>
      rcases ih (n + 1) with hfree | hall
      · exact .inl hfree
      · refine .inr fun i hi => ?_
        cases i with
        | zero => simpa using h
        | succ i =>
          have := hall i (by omega)
          rwa [show n + 1 + (i : Int) = n + (i + 1 : Nat) by omega] at this
    next h => exact .inl h

/-- **A fresh name is not reserved.** -/
theorem fresh_not_mem (s : NameSupply) (base : String) : (s.fresh base).1 ∉ s.reserved := by
  rcases firstFree_cases s.reserved (stem base) s.reserved.size (s.counter + 1) with h | h
  · exact h
  · -- one more name would be reserved than there are reserved names
    exfalso
    let candidates := (List.range (s.reserved.size + 1)).map fun i : Nat =>
      numbered (stem base) (s.counter + 1 + i)
    have hnodup : candidates.Nodup := by
      refine List.Nodup.map ?_ List.nodup_range
      intro i j hij
      have := numbered_inj hij
      omega
    have hsub : candidates ⊆ s.reserved.toList := by
      intro x hx
      obtain ⟨i, hi, rfl⟩ := List.mem_map.1 hx
      exact h i (by simpa [Nat.lt_succ_iff] using hi)
    have hle := (hnodup.subperm hsub).length_le
    simp only [candidates, List.length_map, List.length_range, NameSet.size] at hle
    omega

/-! ## Covered and drawn names -/

/-- A later moment of a supply: more may be reserved, and higher numbers given. -/
structure Le (s t : NameSupply) : Prop where
  reserved : ∀ x, x ∈ s.reserved → x ∈ t.reserved
  counter : s.counter ≤ t.counter

@[refl]
theorem Le.refl (s : NameSupply) : s.Le s := ⟨fun _ h => h, Int.le_refl _⟩

/-- Counters that only rise go on rising. -/
theorem Le.trans {s t u : NameSupply} (h₁ : s.Le t) (h₂ : t.Le u) : s.Le u :=
  ⟨fun x h => h₂.reserved x (h₁.reserved x h), Int.le_trans h₁.counter h₂.counter⟩

/-- A later moment of a supply that has not given a name in between. -/
structure Reserves (s t : NameSupply) : Prop where
  reserved : ∀ x, x ∈ s.reserved → x ∈ t.reserved
  counter : s.counter = t.counter

@[refl]
theorem Reserves.refl (s : NameSupply) : s.Reserves s := ⟨fun _ h => h, rfl⟩

theorem Reserves.trans {s t u : NameSupply} (h₁ : s.Reserves t) (h₂ : t.Reserves u) :
    s.Reserves u :=
  ⟨fun x h => h₂.reserved x (h₁.reserved x h), h₁.counter.trans h₂.counter⟩

/-- A supply that reserves more has at least its names. -/
theorem Reserves.le {s t : NameSupply} (h : s.Reserves t) : s.Le t :=
  ⟨h.reserved, Int.le_of_eq h.counter⟩

/-- To reserve names leaves the counter as it is. -/
theorem reserves_reserve (s : NameSupply) (names : NameSet) : s.Reserves (s.reserve names) :=
  ⟨fun _ h => NameSet.mem_union.2 (.inl h), rfl⟩

/-- **Covered**: a name that the supply will not give from now on. -/
def Covers (s : NameSupply) (x : String) : Prop :=
  x ∈ s.reserved ∨ ∀ stem n, s.counter < n → x ≠ numbered stem n

/-- **Drawn**: a name that a supply gave between two moments. -/
structure Drawn (s t : NameSupply) (x : String) : Prop where
  fresh : x ∉ s.reserved
  number : ∃ stem n, x = numbered stem n ∧ s.counter < n ∧ n ≤ t.counter

/-- A name that a supply will not give again is not given by any later one. -/
theorem Covers.mono {s t : NameSupply} (h : s.Le t) {x : String} (hx : s.Covers x) :
    t.Covers x := by
  rcases hx with hx | hx
  · exact .inl (h.reserved x hx)
  · exact .inr fun stem n hn => hx stem n (Int.lt_of_le_of_lt h.counter hn)

/-- What was drawn between two supplies was drawn between any further apart. -/
theorem Drawn.mono {s s' t t' : NameSupply} (hs : s'.Le s) (ht : t.Le t') {x : String}
    (hx : s.Drawn t x) : s'.Drawn t' x := by
  obtain ⟨stem, n, rfl, hlo, hhi⟩ := hx.number
  exact ⟨fun h => hx.fresh (hs.reserved _ h), stem, n, rfl, Int.lt_of_le_of_lt hs.counter hlo,
    Int.le_trans hhi ht.counter⟩

/-- A name that was drawn is not given again. -/
theorem Drawn.covers {s t : NameSupply} {x : String} (hx : s.Drawn t x) : t.Covers x := by
  obtain ⟨stem, n, rfl, -, hhi⟩ := hx.number
  refine .inr fun stem' n' hn' h => ?_
  have := numbered_inj h
  omega

theorem Drawn.ne_empty {s t : NameSupply} {x : String} (hx : s.Drawn t x) : x ≠ "" := by
  obtain ⟨stem, n, rfl, -, -⟩ := hx.number
  exact numbered_ne_empty stem n

/-- What is covered is not drawn later. -/
theorem Covers.ne {s t : NameSupply} {x y : String} (hx : s.Covers x) (hy : s.Drawn t y) :
    x ≠ y := by
  rintro rfl
  rcases hx with hx | hx
  · exact hy.fresh hx
  · obtain ⟨stem, n, rfl, hlo, -⟩ := hy.number
    exact hx stem n hlo rfl

/-- To draw a name only raises the counter. -/
theorem le_fresh (s : NameSupply) (base : String) : s.Le (s.fresh base).2 :=
  ⟨fun _ h => h, Int.le_of_lt (s.counter_lt_fresh base)⟩

/-- **A drawn name is new**: it is not reserved and has a number of its own. -/
theorem fresh_drawn (s : NameSupply) (base : String) :
    s.Drawn (s.fresh base).2 (s.fresh base).1 :=
  ⟨s.fresh_not_mem base, _, _, rfl, s.counter_lt_fresh base, Int.le_refl _⟩

/-- Different names that were all drawn between two moments. -/
structure DrawnAll (s t : NameSupply) (xs : List String) : Prop where
  nodup : xs.Nodup
  drawn : ∀ x ∈ xs, s.Drawn t x

theorem DrawnAll.mono {s s' t t' : NameSupply} (hs : s'.Le s) (ht : t.Le t') {xs : List String}
    (h : s.DrawnAll t xs) : s'.DrawnAll t' xs :=
  ⟨h.nodup, fun x hx => (h.drawn x hx).mono hs ht⟩

theorem DrawnAll.nil (s t : NameSupply) : s.DrawnAll t [] :=
  ⟨.nil, fun _ h => nomatch h⟩

/-- What is drawn at first and what is drawn later is all different. -/
theorem DrawnAll.append {s t u : NameSupply} (hst : s.Le t) (htu : t.Le u) {xs ys : List String}
    (hx : s.DrawnAll t xs) (hy : t.DrawnAll u ys) : s.DrawnAll u (xs ++ ys) := by
  refine ⟨List.nodup_append.2 ⟨hx.nodup, hy.nodup, fun x hxm y hym => ?_⟩, fun z hz => ?_⟩
  · exact (hx.drawn x hxm).covers.ne (hy.drawn y hym)
  · rcases List.mem_append.1 hz with hz | hz
    · exact (hx.drawn z hz).mono (.refl s) htu
    · exact (hy.drawn z hz).mono hst (.refl u)

theorem le_freshAll (s : NameSupply) (xs : List String) : s.Le (s.freshAll xs).2 := by
  induction xs generalizing s with
  | nil => exact .refl s
  | cons x xs ih => exact (s.le_fresh x).trans (ih _)

/-- One name is drawn for each base. -/
theorem length_freshAll (s : NameSupply) (xs : List String) :
    (s.freshAll xs).1.length = xs.length := by
  induction xs generalizing s with
  | nil => rfl
  | cons x xs ih => exact congrArg (· + 1) (ih _)

/-- **Fresh names are drawn, and all different.** -/
theorem freshAll_drawn (s : NameSupply) (xs : List String) :
    s.DrawnAll (s.freshAll xs).2 (s.freshAll xs).1 := by
  induction xs generalizing s with
  | nil => exact .nil s s
  | cons x xs ih =>
    have hrest := ih (s.fresh x).2
    have hx := s.fresh_drawn x
    -- the first name is covered by the time the others are drawn
    refine ⟨List.nodup_cons.2 ⟨fun hm => ?_, hrest.nodup⟩, ?_⟩
    · exact hx.covers.ne (hrest.drawn _ hm) rfl
    · intro y hy
      rcases List.mem_cons.1 hy with rfl | hy
      · exact hx.mono (.refl s) (le_freshAll _ xs)
      · exact (hrest.drawn y hy).mono (s.le_fresh x) (.refl _)

/-- Names that parameters can have: different, not empty, and covered. -/
structure Sound (s : NameSupply) (xs : List String) : Prop where
  nodup : xs.Nodup
  nonempty : "" ∉ xs
  covers : ∀ x ∈ xs, s.Covers x

/-- Parameters that are sound for a supply are sound for later ones. -/
theorem Sound.mono {s t : NameSupply} (h : s.Le t) {xs : List String} (hx : s.Sound xs) :
    t.Sound xs :=
  ⟨hx.nodup, hx.nonempty, fun x hm => (hx.covers x hm).mono h⟩

/-- Parameters that were drawn together are sound. -/
theorem DrawnAll.sound {s t : NameSupply} {xs : List String} (h : s.DrawnAll t xs) : t.Sound xs :=
  ⟨h.nodup, fun hm => (h.drawn _ hm).ne_empty rfl, fun x hx => (h.drawn x hx).covers⟩

end NameSupply

/-! ## Renaming draws names -/

namespace Expr

mutual

/-- Renaming only draws from its supply. -/
theorem le_rename : ∀ (e : Expr) (s : NameSupply), s.Le (e.rename s).2
  | .lambda ps b, s => (le_renameAll b s).trans (NameSupply.le_freshAll _ ps)
  | .cond t c a, s => ((le_rename t s).trans (le_rename c _)).trans (le_rename a _)
  | .app f es, s => (le_rename f s).trans (le_renameAll es _)
  | .define _ e, s => le_rename e s
  | .dict es, s => le_renameEntries es s
  | .number _, s | .boolean _, s | .string _, s | .var _, s | .prim _, s | .quote _, s
  | .foreign _, s => .refl s

theorem le_renameAll : ∀ (es : List Expr) (s : NameSupply), s.Le (renameAll es s).2
  | [], s => .refl s
  | e :: es, s => (le_rename e s).trans (le_renameAll es _)

theorem le_renameEntries : ∀ (es : List (String × Expr)) (s : NameSupply),
    s.Le (renameEntries es s).2
  | [], s => .refl s
  | (_, e) :: es, s => (le_rename e s).trans (le_renameEntries es _)

end

mutual

/-- **The names that renaming an expression draws**, in their order. -/
def drawn : Expr → NameSupply → List String
  | .lambda ps b, s => drawnAll b s ++ ((renameAll b s).2.freshAll ps).1
  | .cond t c a, s =>
    let s₁ := (t.rename s).2
    let s₂ := (c.rename s₁).2
    t.drawn s ++ c.drawn s₁ ++ a.drawn s₂
  | .app f es, s => f.drawn s ++ drawnAll es (f.rename s).2
  | .define _ e, s => e.drawn s
  | .dict es, s => drawnEntries es s
  | .number _, _ | .boolean _, _ | .string _, _ | .var _, _ | .prim _, _ | .quote _, _
  | .foreign _, _ => []

/-- The names that renaming several expressions draws. -/
def drawnAll : List Expr → NameSupply → List String
  | [], _ => []
  | e :: es, s => e.drawn s ++ drawnAll es (e.rename s).2

/-- The names that renaming the values of a dictionary literal draws. -/
def drawnEntries : List (String × Expr) → NameSupply → List String
  | [], _ => []
  | (_, e) :: es, s => e.drawn s ++ drawnEntries es (e.rename s).2

end

mutual

/-- **The parameters of a renamed expression are all drawn.** -/
theorem rename_drawn : ∀ (e : Expr) (s : NameSupply), s.DrawnAll (e.rename s).2 (e.drawn s)
  | .lambda ps b, s => (renameAll_drawn b s).append (le_renameAll b s)
    (NameSupply.le_freshAll _ ps) (NameSupply.freshAll_drawn _ ps)
  | .cond t c a, s => ((rename_drawn t s).append (le_rename t s) (le_rename c _)
    (rename_drawn c _)).append ((le_rename t s).trans (le_rename c _)) (le_rename a _)
    (rename_drawn a _)
  | .app f es, s => (rename_drawn f s).append (le_rename f s) (le_renameAll es _)
    (renameAll_drawn es _)
  | .define _ e, s => rename_drawn e s
  | .dict es, s => renameEntries_drawn es s
  | .number _, s | .boolean _, s | .string _, s | .var _, s | .prim _, s | .quote _, s
  | .foreign _, s => .nil s s

/-- **Renaming draws names that are new, and all different.** -/
theorem renameAll_drawn : ∀ (es : List Expr) (s : NameSupply),
    s.DrawnAll (renameAll es s).2 (drawnAll es s)
  | [], s => .nil s s
  | e :: es, s => (rename_drawn e s).append (le_rename e s) (le_renameAll es _)
    (renameAll_drawn es _)

theorem renameEntries_drawn : ∀ (es : List (String × Expr)) (s : NameSupply),
    s.DrawnAll (renameEntries es s).2 (drawnEntries es s)
  | [], s => .nil s s
  | (_, e) :: es, s => (rename_drawn e s).append (le_rename e s) (le_renameEntries es _)
    (renameEntries_drawn es _)

end

end Expr

end Lambdict
