import Lambdict.Proofs.Supplies
import Mathlib.Data.List.TakeWhile
import Mathlib.Order.Bounds.Defs

/-!
# Requests to a supply

A supply serves requests one after another: it gives a fresh name for a base, or it reserves names
(`NameSupply.serve`).  Every name that it gives is a stem with a number.  The stem is what is left
of the base without a number that it was given before (`NameSupply.isStem_iff`).  The number is the
least one above the counter whose name is not reserved; that there is one at all, since only
finitely many names are reserved, is what ends the search for it (`NameSupply.freshWithin_isRight`).
A request is refused only where the search meets a number over the digit limit, and that leaves the
supply as it was.

No name is given twice, whatever the bases are (`NameSupply.serve_isFresh`).  For the number of a
name can be read off its end, although stems may have underscores and digits at their own ends, and
numbers only rise.
-/

namespace Lambdict

namespace NameSupply

/-! ## Stems -/

/-- A generated suffix: two underscores and digits. -/
def IsSuffix (suffix : String) : Prop :=
  ∃ ds, ds ≠ [] ∧ (∀ d ∈ ds, Text.isDigit d = true) ∧ suffix = String.ofList ('_' :: '_' :: ds)

/-- What is left of a name without a generated suffix, which stands at the very end or before a
newline at the end. -/
inductive Strips (base : String) : String → Prop
  | last {rest suffix : String} (hs : IsSuffix suffix) (hb : base = rest ++ suffix) :
    Strips base rest
  | beforeNewline {rest suffix : String} (hs : IsSuffix suffix)
    (hb : base = rest ++ suffix ++ "\n") : Strips base (rest ++ "\n")

/-- **The stem of a name**: the name without its generated suffix.  It is the whole name where there
is no such suffix, or nothing beside it. -/
inductive IsStem (base : String) : String → Prop
  | stripped {rest : String} (h : Strips base rest) (hne : rest ≠ "") : IsStem base rest
  | whole (h : ∀ rest, Strips base rest → rest = "") : IsStem base base

theorem dropNumber_eq_some_iff {rev rest : List Char} :
    dropNumber rev = some rest ↔
      ∃ ds, ds ≠ [] ∧ (∀ d ∈ ds, Text.isDigit d = true) ∧ rev = ds ++ '_' :: '_' :: rest := by
  constructor
  · intro h
    have hsplit := List.takeWhile_append_dropWhile (p := Text.isDigit) (l := rev)
    unfold dropNumber at h
    split at h
    next d ds rest' htake hdrop =>
      obtain rfl := Option.some.inj h
      rw [htake, hdrop] at hsplit
      refine ⟨d :: ds, List.cons_ne_nil d ds, fun c hc => ?_, hsplit.symm⟩
      rw [← htake] at hc
      exact List.mem_takeWhile_imp hc
    next => cases h
  · rintro ⟨ds, hne, hds, rfl⟩
    have hmark : Text.isDigit '_' = false := by decide
    have htake : (ds ++ '_' :: '_' :: rest).takeWhile Text.isDigit = ds := by
      rw [List.takeWhile_append_of_pos hds]
      simp [hmark]
    have hdrop : (ds ++ '_' :: '_' :: rest).dropWhile Text.isDigit = '_' :: '_' :: rest := by
      rw [List.dropWhile_append_of_pos hds]
      simp [hmark]
    unfold dropNumber
    rw [htake, hdrop]
    cases ds with
    | nil => exact absurd rfl hne
    | cons d ds => rfl

/-- The reversed characters of a name without its generated suffix. -/
def strip? : List Char → Option (List Char)
  | '\n' :: rev => (dropNumber rev).map fun rest => '\n' :: rest
  | rev => dropNumber rev

theorem strip?_of_strips {base rest : String} (h : Strips base rest) :
    strip? base.toList.reverse = some rest.toList.reverse := by
  rcases h with ⟨⟨ds, hne, hds, rfl⟩, rfl⟩ | @⟨rest, _, ⟨ds, hne, hds, rfl⟩, rfl⟩
  all_goals
    have hdrop : dropNumber (ds.reverse ++ '_' :: '_' :: rest.toList.reverse) =
        some rest.toList.reverse := by
      refine dropNumber_eq_some_iff.2 ⟨ds.reverse, by simpa using hne, fun d hd => ?_, rfl⟩
      exact hds d (List.mem_reverse.1 hd)
  · -- the name ends in a digit, and so in no newline
    obtain ⟨d, tail, hrev⟩ := List.exists_cons_of_ne_nil (List.reverse_ne_nil_iff.2 hne)
    have hd : d ≠ '\n' := by
      rintro rfl
      have hdigit := hds '\n' (List.mem_reverse.1 (hrev ▸ List.mem_cons_self))
      revert hdigit
      decide
    have hbase : (rest ++ String.ofList ('_' :: '_' :: ds)).toList.reverse =
        ds.reverse ++ '_' :: '_' :: rest.toList.reverse := by simp
    rw [hbase, ← hdrop, hrev, List.cons_append]
    unfold strip?
    split
    next heq => exact absurd (List.cons.inj heq).1 hd
    next => rfl
  · have hbase : (rest ++ String.ofList ('_' :: '_' :: ds) ++ "\n").toList.reverse =
        '\n' :: (ds.reverse ++ '_' :: '_' :: rest.toList.reverse) := by simp
    rw [hbase, strip?, hdrop]
    simp

theorem strips_of_dropNumber {base : String} {rev rest : List Char} (tail : List Char)
    (hb : base.toList.reverse = tail ++ rev) (h : dropNumber rev = some rest) :
    ∃ suffix, IsSuffix suffix ∧
      base = String.ofList rest.reverse ++ suffix ++ String.ofList tail.reverse := by
  obtain ⟨ds, hne, hds, rfl⟩ := dropNumber_eq_some_iff.1 h
  refine ⟨_, ⟨ds.reverse, by simpa using hne, fun d hd => hds d (List.mem_reverse.1 hd), rfl⟩, ?_⟩
  have hlist := congrArg List.reverse hb
  rw [List.reverse_reverse] at hlist
  rw [← String.ofList_toList (s := base), hlist]
  simp [String.append_assoc]

theorem strips_of_strip? {base : String} {rev : List Char}
    (h : strip? base.toList.reverse = some rev) : Strips base (String.ofList rev.reverse) := by
  unfold strip? at h
  split at h
  next rev' hb =>
    obtain ⟨rest, hrest, rfl⟩ := Option.map_eq_some_iff.1 h
    obtain ⟨suffix, hs, hbase⟩ := strips_of_dropNumber ['\n'] hb hrest
    rw [List.reverse_cons, String.ofList_append]
    exact .beforeNewline hs hbase
  next =>
    obtain ⟨suffix, hs, hbase⟩ := strips_of_dropNumber [] rfl h
    exact .last hs (by simpa using hbase)

theorem stem_eq (base : String) :
    stem base = match strip? base.toList.reverse with
      | some (c :: rev) => String.ofList (c :: rev).reverse
      | _ => base := rfl

/-- **The stem is computed as it is described.** -/
theorem isStem_iff {base s : String} : IsStem base s ↔ s = stem base := by
  rw [stem_eq]
  constructor
  · rintro (⟨hstrips, hne⟩ | hwhole)
    · rw [strip?_of_strips hstrips]
      cases hrev : s.toList.reverse with
      | nil => simp_all
      | cons c rev => simp [← hrev]
    · cases hstrip : strip? base.toList.reverse with
      | none => rfl
      | some rev =>
        have hempty := hwhole _ (strips_of_strip? hstrip)
        cases rev with
        | nil => rfl
        | cons c rev => simp at hempty
  · rintro rfl
    split
    next c rev hstrip => exact .stripped (strips_of_strip? hstrip) (by simp)
    next hnone =>
      refine .whole fun rest hrest => ?_
      by_contra hne
      cases hrev : rest.toList.reverse with
      | nil => simp_all
      | cons c rev => exact hnone c rev (by rw [strip?_of_strips hrest, hrev])

/-! ## The search for a number -/

/-- **The search for a free number**: begun at a number, it ends at a number.  It goes on to the
next number while the name is reserved. -/
inductive Searches (reserved : NameSet) (stem : String) : Int → Int → Prop
  | ends {n : Int} (h : numbered stem n ∉ reserved) : Searches reserved stem n n
  | goesOn {n m : Int} (h : numbered stem n ∈ reserved) (hm : Searches reserved stem (n + 1) m) :
    Searches reserved stem n m

theorem searches_of_le {reserved : NameSet} {stem : String} {n m : Int} (hle : n ≤ m)
    (htaken : ∀ k, n ≤ k → k < m → numbered stem k ∈ reserved)
    (hfree : numbered stem m ∉ reserved) : Searches reserved stem n m := by
  obtain ⟨d, rfl⟩ := Int.le.dest hle
  induction d generalizing n with
  | zero =>
    rw [Int.natCast_zero, Int.add_zero] at hfree ⊢
    exact .ends hfree
  | succ d ih =>
    have hassoc : n + ((d + 1 : Nat) : Int) = n + 1 + d := by omega
    rw [hassoc] at htaken hfree ⊢
    refine .goesOn (htaken n (Int.le_refl n) (by omega)) (ih (by omega) (fun k hk => ?_) hfree)
    exact htaken k (by omega)

/-! ## Requests -/

/-- What a supply can be asked for. -/
inductive Request
  | fresh (base : String)
  | reserve (names : NameSet)

/-- The base of a request for a fresh name. -/
def Request.base? : Request → Option String
  | .fresh base => some base
  | .reserve _ => none

/-- What came of a request for a fresh name: the supply that was asked, the base, and the name with
the supply after it, or the abort. -/
structure Reply where
  before : NameSupply
  base : String
  result : Except Abort (String × NameSupply)

/-- The name that was given. -/
def Reply.name? (r : Reply) : Option String :=
  r.result.toOption.map Prod.fst

/-- The supply to ask next.  A request that is not answered leaves the one that was asked. -/
def Reply.after (r : Reply) : NameSupply :=
  match r.result with
  | .ok (_, s) => s
  | .error _ => r.before

/-- **Serves requests** one after another. -/
def serve (s : NameSupply) : List Request → List Reply × NameSupply
  | [] => ([], s)
  | .fresh base :: requests =>
    let reply : Reply := ⟨s, base, s.freshWithin base⟩
    let (replies, s') := reply.after.serve requests
    (reply :: replies, s')
  | .reserve names :: requests => (s.reserve names).serve requests

/-- **A reply is right**: there is a least free number above the counter for the stem of the base,
and the search for one ends there.  If all numbers up to it can be written, the stem with this
number is given, the counter goes on to the number, and the supply reserves what it reserved before.
Otherwise the request ends with the abort of numbers that are too long. -/
structure Reply.IsRight (r : Reply) (stem : String) (n : Int) : Prop where
  isStem : IsStem r.base stem
  least : IsLeast {m | r.before.counter < m ∧ numbered stem m ∉ r.before.reserved} n
  search : Searches r.before.reserved stem (r.before.counter + 1) n
  answered : (∀ m, r.before.counter < m → m ≤ n → (Number.int m).writable = true) →
    r.result = .ok (numbered stem n, ⟨n, r.before.reserved⟩)
  refused : (∃ m, r.before.counter < m ∧ m ≤ n ∧ (Number.int m).writable = false) →
    r.result = .error .longNumber

theorem freshWithin_isRight (s : NameSupply) (base : String) :
    Reply.IsRight ⟨s, base, s.freshWithin base⟩ (stem base) (s.fresh base).2.counter := by
  have hlt := s.counter_lt_fresh base
  have hfree : numbered (stem base) (s.fresh base).2.counter ∉ s.reserved := s.fresh_not_mem base
  have htaken (m : Int) (hs : s.counter < m) (hm : m < (s.fresh base).2.counter) :
      numbered (stem base) m ∈ s.reserved := mem_of_lt_fresh hs hm
  have hanswers := s.freshWithin_answers base
  refine ⟨isStem_iff.2 rfl, ⟨⟨hlt, hfree⟩, fun m hm => ?_⟩, ?_, hanswers.ok, ?_⟩
  · by_contra hlow
    exact hm.2 (htaken m hm.1 (Int.not_le.1 hlow))
  · exact searches_of_le hlt (fun k hk => htaken k hk) hfree
  · rintro ⟨m, hlo, hhi, hm⟩
    exact hanswers.error fun h => Bool.false_ne_true (hm.symm.trans (h m hlo hhi))

/-- A request is answered with the fresh name, or it leaves the supply that was asked. -/
theorem freshWithin_cases (s : NameSupply) (base : String) :
    s.freshWithin base = .ok (s.fresh base) ∨ s.freshWithin base = .error .longNumber := by
  by_cases h : s.Within (s.fresh base).2
  · exact .inl ((s.freshWithin_answers base).ok h)
  · exact .inr ((s.freshWithin_answers base).error h)

theorem le_serve (s : NameSupply) (requests : List Request) : s.Le (s.serve requests).2 := by
  induction requests generalizing s with
  | nil => exact .refl s
  | cons r requests ih =>
    cases r with
    | fresh base =>
      refine Le.trans ?_ (ih _)
      rcases s.freshWithin_cases base with h | h <;> rw [h]
      · exact s.le_fresh base
      · exact .refl s
    | reserve names => exact (s.reserves_reserve names).le.trans (ih _)

theorem serve_drawn (s : NameSupply) (requests : List Request) :
    s.DrawnAll (s.serve requests).2 ((s.serve requests).1.filterMap Reply.name?) := by
  induction requests generalizing s with
  | nil => exact .nil s s
  | cons r requests ih =>
    cases r with
    | fresh base =>
      simp only [serve]
      rcases s.freshWithin_cases base with h | h <;> rw [h]
      · -- the first name is drawn before all others
        have hfirst := s.freshAll_drawn [base]
        exact hfirst.append (s.le_fresh base) (le_serve _ requests) (ih _)
      · exact ih s
    | reserve names => exact (ih _).mono (s.reserves_reserve names).le (.refl _)

/-- **Fresh names are really fresh.**  Whatever a supply is asked for, each request for a fresh name
has a reply.  There is always a least number above the counter whose name, with the stem of the
base, is free.  If no number up to it is over the digit limit, the reply is this name, which is not
reserved at that moment; the counter goes on to the number and the reserved names stay.  Otherwise
the request ends with an abort.  All names that are given are different. -/
theorem serve_isFresh (s : NameSupply) (requests : List Request) :
    let replies := (s.serve requests).1
    replies.map Reply.base = requests.filterMap Request.base? ∧
      (∀ r ∈ replies, (∀ x ∈ r.name?, x ∉ r.before.reserved) ∧ ∃ stem n, r.IsRight stem n) ∧
      (replies.filterMap Reply.name?).Nodup := by
  refine ⟨?_, ?_, (s.serve_drawn requests).nodup⟩
  · induction requests generalizing s with
    | nil => rfl
    | cons r requests ih =>
      cases r with
      | fresh base => exact congrArg (base :: ·) (ih _)
      | reserve names => exact ih _
  · induction requests generalizing s with
    | nil => exact fun r hr => absurd hr List.not_mem_nil
    | cons r requests ih =>
      cases r with
      | fresh base =>
        intro r hr
        rcases List.mem_cons.1 hr with rfl | hr
        · refine ⟨fun x hx => ?_, _, _, s.freshWithin_isRight base⟩
          rcases s.freshWithin_cases base with h | h <;>
            simp [Reply.name?, h, Except.toOption] at hx
          exact hx ▸ s.fresh_not_mem base
        · exact ih _ r hr
      | reserve names => exact ih _

/-- The counter is negative, a number is passed over at each of the first two names, and the bases
share a stem: one has a generated suffix, and of the last nothing would be left. -/
theorem serve_isFresh_negative :
    let s : NameSupply := ⟨-2, .ofList ["x__-1"]⟩
    let requests : List Request :=
      [.fresh "x__7", .reserve (.ofList ["x__1", "x__2"]), .fresh "x", .fresh "__5"]
    let replies := (s.serve requests).1
    replies.map Reply.name? = [some "x__0", some "x__3", some "__5__4"] ∧
      (∀ r ∈ replies, ∃ stem n, r.IsRight stem n) ∧ (replies.filterMap Reply.name?).Nodup := by
  intro s requests replies
  obtain ⟨-, hright, hnodup⟩ := serve_isFresh s requests
  exact ⟨by decide +kernel, fun r hr => (hright r hr).2, hnodup⟩

/-- **At the digit limit no name is given**, although a number is free: the one after the last
number that can be written. -/
theorem serve_last_refused :
    let s := last ∅
    let n : Int := Double.tenPow Number.digitLimit
    s.counter = n - 1 ∧ IsLeast {m | s.counter < m ∧ numbered "x" m ∉ s.reserved} n ∧
      (s.serve [.fresh "x"]).1 = [⟨s, "x", .error .longNumber⟩] := by
  intro s n
  have hrefused : s.freshWithin "x" = .error .longNumber :=
    (s.freshWithin_answers "x").error (not_within_last (s.counter_lt_fresh "x"))
  refine ⟨rfl, ⟨⟨?_, NameSet.not_mem_empty _⟩, fun m hm => ?_⟩, ?_⟩
  · exact Int.sub_one_lt_of_le (Int.le_refl _)
  · exact Int.le_of_sub_one_lt hm.1
  · simp only [serve, hrefused]

end NameSupply

end Lambdict
