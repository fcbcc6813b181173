import Lambdict.Proofs.Simulation.Invariant

/-!
# Supplies that give the same names

What a supply gives depends on its counter and on the reserved names that it meets from there on.
Two supplies that agree on these are *alike* (`NameSupply.Alike`): they may reserve different names,
as long as the difference is in names that neither of them comes to.  Such supplies give the same
names and stay alike, because the number that is taken is in either case the first one whose name is
not reserved (`NameSupply.mem_of_lt_fresh`).

So what is reserved beyond need has no effect.  Evaluation with one supply comes to what it comes to
with any supply like it (`Expr.evalAt_alike`).  In particular, a name that the supply does not give
anyhow can be reserved or not (`NameSupply.alike_reserve`).
-/

namespace Lambdict

namespace NameSupply

/-! ## The first free number -/

theorem mem_of_lt_firstFree {reserved : NameSet} {stem : String} {k : Nat} {n m : Int} (hn : n ≤ m)
    (hm : m < firstFree reserved stem k n) : numbered stem m ∈ reserved := by
  induction k generalizing n with
  | zero =>
    simp only [firstFree] at hm
    omega
  | succ k ih =>
    simp only [firstFree] at hm
    split at hm
    next h =>
      rcases Int.lt_or_eq_of_le hn with hlt | rfl
      · exact ih (by omega) hm
      · exact h
    next => omega

/-- The number of a fresh name is the first one above the counter that is free. -/
theorem mem_of_lt_fresh {s : NameSupply} {base : String} {m : Int} (hs : s.counter < m)
    (hm : m < (s.fresh base).2.counter) : numbered (stem base) m ∈ s.reserved :=
  mem_of_lt_firstFree (by omega) hm

/-- A name without an underscore is never given. -/
theorem covers_of_no_underscore (s : NameSupply) {x : String} (h : '_' ∉ x.toList) :
    s.Covers x := by
  refine .inr fun stem n _ hx => h ?_
  simp [hx, numbered]

/-! ## Alike supplies -/

/-- **Supplies that are alike**: they are at the same number, and of the names with higher numbers
they have reserved the same. -/
structure Alike (s t : NameSupply) : Prop where
  counter : s.counter = t.counter
  reserved : ∀ stem n, s.counter < n → (numbered stem n ∈ s.reserved ↔ numbered stem n ∈ t.reserved)

theorem Alike.symm {s t : NameSupply} (h : s.Alike t) : t.Alike s :=
  ⟨h.counter.symm, fun stem n hn => (h.reserved stem n (h.counter ▸ hn)).symm⟩

/-- Names that a supply does not give can be reserved. -/
theorem alike_reserve {s : NameSupply} {names : NameSet} (h : ∀ x ∈ names, s.Covers x) :
    s.Alike (s.reserve names) := by
  refine ⟨rfl, fun stem n hn => ⟨fun hm => NameSet.mem_union.2 (.inl hm), fun hm => ?_⟩⟩
  rcases NameSet.mem_union.1 hm with hm | hm
  · exact hm
  · exact (h _ hm).resolve_right fun hne => hne stem n hn rfl

/-- The number that one supply takes is not beyond that of the other. -/
theorem Alike.counter_fresh_le {s t : NameSupply} (h : s.Alike t) (base : String) :
    (s.fresh base).2.counter ≤ (t.fresh base).2.counter := by
  refine Int.not_lt.1 fun hlt => t.fresh_not_mem base ?_
  -- otherwise the first supply has passed over the name that the second gives
  have ht := t.counter_lt_fresh base
  rw [← h.counter] at ht
  exact (h.reserved _ _ ht).1 (mem_of_lt_fresh ht hlt)

theorem Alike.counter_fresh {s t : NameSupply} (h : s.Alike t) (base : String) :
    (s.fresh base).2.counter = (t.fresh base).2.counter :=
  Int.le_antisymm (h.counter_fresh_le base) (h.symm.counter_fresh_le base)

/-- **Alike supplies give the same name** and are alike again. -/
theorem Alike.fresh {s t : NameSupply} (h : s.Alike t) (base : String) :
    (s.fresh base).1 = (t.fresh base).1 ∧ (s.fresh base).2.Alike (t.fresh base).2 := by
  refine ⟨congrArg (numbered (stem base)) (h.counter_fresh base), h.counter_fresh base,
    fun stem n hn => h.reserved stem n ?_⟩
  exact Int.lt_trans (s.counter_lt_fresh base) hn

theorem Alike.freshAll {s t : NameSupply} (h : s.Alike t) (xs : List String) :
    (s.freshAll xs).1 = (t.freshAll xs).1 ∧ (s.freshAll xs).2.Alike (t.freshAll xs).2 := by
  induction xs generalizing s t with
  | nil => exact ⟨rfl, h⟩
  | cons x xs ih =>
    obtain ⟨hx, h₁⟩ := h.fresh x
    obtain ⟨hxs, h₂⟩ := ih h₁
    simp only [NameSupply.freshAll, hx, hxs]
    exact ⟨trivial, h₂⟩

end NameSupply

/-! ## Renaming -/

namespace Expr

open NameSupply (Alike)

mutual

theorem rename_alike : ∀ (e : Expr) {s t : NameSupply}, s.Alike t →
    (e.rename s).1 = (e.rename t).1 ∧ (e.rename s).2.Alike (e.rename t).2
  | .lambda ps b, s, t, h => by
    obtain ⟨hb, h₁⟩ := renameAll_alike b h
    obtain ⟨hps, h₂⟩ := h₁.freshAll ps
    simp only [rename, hb, hps]
    exact ⟨trivial, h₂⟩
  | .cond e c a, s, t, h => by
    obtain ⟨he, h₁⟩ := rename_alike e h
    obtain ⟨hc, h₂⟩ := rename_alike c h₁
    obtain ⟨ha, h₃⟩ := rename_alike a h₂
    simp only [rename, he, hc, ha]
    exact ⟨trivial, h₃⟩
  | .app f es, s, t, h => by
    obtain ⟨hf, h₁⟩ := rename_alike f h
    obtain ⟨hes, h₂⟩ := renameAll_alike es h₁
    simp only [rename, hf, hes]
    exact ⟨trivial, h₂⟩
  | .define x e, s, t, h => by
    obtain ⟨he, h₁⟩ := rename_alike e h
    simp only [rename, he]
    exact ⟨trivial, h₁⟩
  | .dict es, s, t, h => by
    obtain ⟨hes, h₁⟩ := renameEntries_alike es h
    simp only [rename, hes]
    exact ⟨trivial, h₁⟩
  | .number _, _, _, h | .boolean _, _, _, h | .string _, _, _, h | .var _, _, _, h
  | .prim _, _, _, h | .quote _, _, _, h | .foreign _, _, _, h => ⟨rfl, h⟩

theorem renameAll_alike : ∀ (es : List Expr) {s t : NameSupply}, s.Alike t →
    (renameAll es s).1 = (renameAll es t).1 ∧ (renameAll es s).2.Alike (renameAll es t).2
  | [], _, _, h => ⟨rfl, h⟩
  | e :: es, s, t, h => by
    obtain ⟨he, h₁⟩ := rename_alike e h
    obtain ⟨hes, h₂⟩ := renameAll_alike es h₁
    simp only [renameAll, he, hes]
    exact ⟨trivial, h₂⟩

theorem renameEntries_alike : ∀ (es : List (String × Expr)) {s t : NameSupply}, s.Alike t →
    (renameEntries es s).1 = (renameEntries es t).1 ∧
      (renameEntries es s).2.Alike (renameEntries es t).2
  | [], _, _, h => ⟨rfl, h⟩
  | (_, e) :: es, s, t, h => by
    obtain ⟨he, h₁⟩ := rename_alike e h
    obtain ⟨hes, h₂⟩ := renameEntries_alike es h₁
    simp only [renameEntries, he, hes]
    exact ⟨trivial, h₂⟩

end

end Expr

/-! ## Evaluation -/

/-- Stores with supplies that are alike, and with as many objects made. -/
structure Store.Alike (s t : Store) : Prop where
  made : s.made = t.made
  limited : s.limited = t.limited
  names : s.names.Alike t.names

/-- Supplies that are alike go through the same numbers. -/
theorem Store.Alike.admits_iff {s t : Store} (h : s.Alike t) (b : List Expr) :
    s.Admits b ↔ t.Admits b := by
  have hcounter := (Expr.renameAll_alike b h.names).2.counter
  simp only [Store.Admits, h.limited, NameSupply.within_congr h.names.counter hcounter]

namespace Simulation

/-- **A run beside one with a supply like its own**: as for a run beside itself, but for the
stores. -/
def supplied : Simulation :=
  { keeping (I := fun _ => True) ⟨fun _ _ => trivial, fun _ _ _ => trivial⟩ with
    fits := fun _ => Store.Alike
    one_to_one := by
      rintro _ _ _ _ _ _ _ - rfl rfl
      exact .rfl
    next := fun hs => ⟨(), trivial, ⟨congrArg (· + 1) hs.made, hs.limited, hs.names⟩,
      congrArg Identity.made hs.made⟩
    next_left := False.elim
    next_right := False.elim
    admits_iff := by
      rintro _ _ b _ _ _ _ ⟨-, rfl⟩ hs
      exact hs.admits_iff b
    call := by
      rintro _ ps b _ _ s t args args' ⟨rfl, rfl⟩ hs hargs -
      obtain rfl : args = args' := List.forall₂_eq_eq_eq ▸ hargs
      obtain ⟨hb, hnames⟩ := Expr.renameAll_alike b hs.names
      refine ⟨(), trivial, ⟨hs.made, hs.limited, hnames⟩, ?_⟩
      rw [hb]
      cases (Value.literals? args).mapError Error.condition with
      | error e => exact .error (.refl e)
      | ok ls => exact .ok (List.forall₂_same.2 fun _ _ => rfl) }

end Simulation

/-- **Supplies that are alike make no difference.**  With either supply the evaluation ends within
a depth or with neither, and it comes to the same value or to conditions that are alike. -/
theorem Expr.evalAt_alike {s t : Store} (h : s.Alike t) (depth : Nat) (env : Environment)
    (e : Expr) : Option.Rel (fun r r' => Agree Eq r.1 r'.1) (e.evalAt depth env s)
      (e.evalAt depth env t) := by
  have henv : Simulation.supplied.EnvRel () env env := List.forall₂_same.2 fun _ _ => ⟨rfl, rfl⟩
  have hruns := Simulation.evalAt_runs (Simulation.supplied.applies depth) e rfl henv
  exact hruns.lockstep id h fun _ _ _ _ _ _ hr => hr

end Lambdict
