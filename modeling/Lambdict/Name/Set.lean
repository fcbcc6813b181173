/-!
# Sets of names

A finite set of names, kept as a list in increasing order of code points. The order is part of the
type, so two sets with the same members are equal (`NameSet.ext`), and the list is also how a set is
shown.
-/

namespace Lambdict

/-- Puts a name into its place in an ordered list, unless it is there. -/
def insertName (x : String) : List String → List String
  | [] => [x]
  | y :: ys => if x = y then y :: ys else if x < y then x :: y :: ys else y :: insertName x ys

theorem mem_insertName {a x : String} {ys : List String} :
    a ∈ insertName x ys ↔ a = x ∨ a ∈ ys := by
  induction ys with
  | nil => simp [insertName]
  | cons y ys ih =>
    simp only [insertName]
    split
    · simp_all
    · split
      · simp
      · simp only [List.mem_cons, ih]
        constructor
        · rintro (h | h | h) <;> simp [h]
        · rintro (h | h | h) <;> simp [h]

theorem pairwise_insertName {x : String} {ys : List String} (h : ys.Pairwise (· < ·)) :
    (insertName x ys).Pairwise (· < ·) := by
  induction ys with
  | nil => simp [insertName]
  | cons y ys ih =>
    have hy := List.pairwise_cons.1 h
    simp only [insertName]
    split
    · exact h
    · next hne =>
      split
      · next hlt =>
        refine List.pairwise_cons.2 ⟨?_, h⟩
        intro a ha
        rcases List.mem_cons.1 ha with rfl | ha
        · exact hlt
        · exact String.lt_trans hlt (hy.1 a ha)
      · next hnlt =>
        refine List.pairwise_cons.2 ⟨?_, ih hy.2⟩
        intro a ha
        rcases mem_insertName.1 ha with rfl | ha
        · refine Decidable.by_contra fun hge => hne ?_
          exact String.le_antisymm (String.not_lt.1 hge) (String.not_lt.1 hnlt)
        · exact hy.1 a ha

/-- A finite set of names. -/
structure NameSet where
  toList : List String
  sorted : toList.Pairwise (· < ·)
deriving DecidableEq

namespace NameSet

instance : Membership String NameSet := ⟨fun s x => x ∈ s.toList⟩

instance (x : String) (s : NameSet) : Decidable (x ∈ s) :=
  inferInstanceAs (Decidable (x ∈ s.toList))

/-- The empty set. -/
def empty : NameSet := ⟨[], .nil⟩

instance : EmptyCollection NameSet := ⟨empty⟩

instance : Inhabited NameSet := ⟨empty⟩

/-- The set with one more name. -/
def insert (x : String) (s : NameSet) : NameSet :=
  ⟨insertName x s.toList, pairwise_insertName s.sorted⟩

/-- The set with the names of a list. -/
def insertAll (s : NameSet) (xs : List String) : NameSet :=
  xs.foldl (fun s x => s.insert x) s

/-- The union. -/
def union (s t : NameSet) : NameSet :=
  s.insertAll t.toList

/-- The set of the names of a list. -/
def ofList (xs : List String) : NameSet :=
  empty.insertAll xs

/-- The number of names. -/
def size (s : NameSet) : Nat :=
  s.toList.length

@[simp]
theorem mem_toList {x : String} {s : NameSet} : x ∈ s.toList ↔ x ∈ s := Iff.rfl

@[simp]
theorem not_mem_empty (x : String) : x ∉ empty := by
  intro h
  cases h

@[simp]
theorem mem_insert {a x : String} {s : NameSet} : a ∈ s.insert x ↔ a = x ∨ a ∈ s :=
  mem_insertName

@[simp]
theorem mem_insertAll {a : String} {s : NameSet} {xs : List String} :
    a ∈ s.insertAll xs ↔ a ∈ s ∨ a ∈ xs := by
  induction xs generalizing s with
  | nil => simp [insertAll]
  | cons x xs ih =>
    have : s.insertAll (x :: xs) = (s.insert x).insertAll xs := rfl
    rw [this, ih, mem_insert, List.mem_cons]
    constructor
    · rintro ((h | h) | h) <;> simp [h]
    · rintro (h | h | h) <;> simp [h]

@[simp]
theorem mem_union {a : String} {s t : NameSet} : a ∈ s.union t ↔ a ∈ s ∨ a ∈ t :=
  mem_insertAll

@[simp]
theorem mem_ofList {a : String} {xs : List String} : a ∈ ofList xs ↔ a ∈ xs := by
  simp [ofList]

/-- Ordered lists with the same members are equal. -/
theorem eq_of_pairwise_of_mem_iff {xs ys : List String} (hx : xs.Pairwise (· < ·))
    (hy : ys.Pairwise (· < ·)) (h : ∀ a, a ∈ xs ↔ a ∈ ys) : xs = ys := by
  induction xs generalizing ys with
  | nil =>
    cases ys with
    | nil => rfl
    | cons y ys => exact absurd ((h y).2 (List.mem_cons_self ..)) (List.not_mem_nil)
  | cons x xs ih =>
    cases ys with
    | nil => exact absurd ((h x).1 (List.mem_cons_self ..)) (List.not_mem_nil)
    | cons y ys =>
      have hx' := List.pairwise_cons.1 hx
      have hy' := List.pairwise_cons.1 hy
      -- each head is a member of the other list, and is the least member of its own
      have hxy : x = y := by
        rcases List.mem_cons.1 ((h x).1 (List.mem_cons_self ..)) with e | hm
        · exact e
        · rcases List.mem_cons.1 ((h y).2 (List.mem_cons_self ..)) with e | hm'
          · exact e.symm
          · exact absurd (String.lt_trans (hx'.1 y hm') (hy'.1 x hm)) (String.lt_irrefl x)
      subst hxy
      congr 1
      refine ih hx'.2 hy'.2 fun a => ?_
      constructor
      · intro ha
        rcases List.mem_cons.1 ((h a).1 (List.mem_cons_of_mem _ ha)) with rfl | hm
        · exact absurd (hx'.1 a ha) (String.lt_irrefl a)
        · exact hm
      · intro ha
        rcases List.mem_cons.1 ((h a).2 (List.mem_cons_of_mem _ ha)) with rfl | hm
        · exact absurd (hy'.1 a ha) (String.lt_irrefl a)
        · exact hm

/-- **Extensionality.** -/
theorem ext {s t : NameSet} (h : ∀ a, a ∈ s ↔ a ∈ t) : s = t := by
  cases s
  cases t
  congr 1
  exact eq_of_pairwise_of_mem_iff ‹_› ‹_› h

end NameSet

end Lambdict
