import Lambdict.Error
import Lambdict.Name.Set
import Lambdict.Text.Digit

/-!
# Fresh names

A supply gives names that no program in sight uses. A fresh name is a stem, two underscores and a
number; the numbers only rise, so no name is given twice, and a name that is reserved is passed
over.

The stem of a name is the name without a number it was given before, so that names do not grow when
they are renamed again and again.

A number is written into the name, and an integer with more digits than the limit cannot be written.
`NameSupply.freshWithin` is the request as it is made, and ends with an abort at such a number;
`NameSupply.fresh` is the name that is meant, whatever its number.  A supply that starts at zero
does not come to the limit: a name would have to be drawn for every number below it.
-/

namespace Lambdict

/-- A source of fresh names: the last number given, and the names that must not be given. -/
structure NameSupply where
  counter : Int
  reserved : NameSet
deriving DecidableEq, Inhabited

namespace NameSupply

/-- The supply that starts at zero with given names reserved. -/
def start (reserved : NameSet) : NameSupply := ⟨0, reserved⟩

/-- Reversed characters without two underscores and digits in front of them, that is, at the end
of the name. -/
def dropNumber (rev : List Char) : Option (List Char) :=
  match rev.takeWhile Text.isDigit, rev.dropWhile Text.isDigit with
  | _ :: _, '_' :: '_' :: rest => some rest
  | _, _ => none

/-- The stem of a name. A newline at the very end hides no number, and a stem is never empty. -/
def stem (base : String) : String :=
  let stripped :=
    match base.toList.reverse with
    | '\n' :: rev => (dropNumber rev).map fun rest => '\n' :: rest
    | rev => dropNumber rev
  match stripped with
  | some (c :: rev) => String.ofList (c :: rev).reverse
  | _ => base

/-- A stem with a number. -/
def numbered (stem : String) (n : Int) : String :=
  stem ++ "__" ++ Number.intText n

/-- The first number from `n` on whose name is not reserved, looking at `k` candidates before the
one that is taken in any case. -/
def firstFree (reserved : NameSet) (stem : String) : Nat → Int → Int
  | 0, n => n
  | k + 1, n => if numbered stem n ∈ reserved then firstFree reserved stem k (n + 1) else n

/-- **A fresh name** for a base, and the supply after it, whatever the number. Among one more
candidates than there are reserved names, one is free. -/
def fresh (s : NameSupply) (base : String) : String × NameSupply :=
  let n := firstFree s.reserved (stem base) s.reserved.size (s.counter + 1)
  (numbered (stem base) n, ⟨n, s.reserved⟩)

/-- Fresh names for several bases, from left to right. -/
def freshAll (s : NameSupply) : List String → List String × NameSupply
  | [] => ([], s)
  | x :: xs =>
    let (y, s₁) := s.fresh x
    let (ys, s₂) := s₁.freshAll xs
    (y :: ys, s₂)

/-- A stem with a number that must be within the digit limit. -/
def numberedWithin (stem : String) (n : Int) : Except Abort String :=
  if (Number.int n).writable then .ok (numbered stem n) else .error .longNumber

/-- The first name from number `n` on that is not reserved, with its number. The name is written
before it is looked for among the reserved ones, so that every number on the way must be within the
digit limit. -/
def firstFreeWithin (reserved : NameSet) (stem : String) : Nat → Int → Except Abort (String × Int)
  | 0, n => do
    let name ← numberedWithin stem n
    return (name, n)
  | k + 1, n => do
    let name ← numberedWithin stem n
    if name ∈ reserved then firstFreeWithin reserved stem k (n + 1) else return (name, n)

/-- **A fresh name as it is asked for**, and the supply after it. A number over the digit limit ends
the request; the supply that was asked stays as it was. -/
def freshWithin (s : NameSupply) (base : String) : Except Abort (String × NameSupply) := do
  let (name, n) ← firstFreeWithin s.reserved (stem base) s.reserved.size (s.counter + 1)
  return (name, ⟨n, s.reserved⟩)

/-- Fresh names for several bases as they are asked for, from left to right. -/
def freshAllWithin (s : NameSupply) : List String → Except Abort (List String × NameSupply)
  | [] => .ok ([], s)
  | x :: xs => do
    let (y, s₁) ← s.freshWithin x
    let (ys, s₂) ← s₁.freshAllWithin xs
    return (y :: ys, s₂)

/-- The supply with more names reserved. -/
def reserve (s : NameSupply) (names : NameSet) : NameSupply :=
  ⟨s.counter, s.reserved.union names⟩

/-- The supply in words. The counter is written, so it must be within the digit limit. -/
def describe (s : NameSupply) : Except Abort String :=
  if (Number.int s.counter).writable then
    .ok ("NameSupply(counter=" ++ Number.intText s.counter ++ ", reserved=" ++
      Nat.repr s.reserved.size ++ " names)")
  else .error .longNumber

@[simp]
theorem reserved_fresh (s : NameSupply) (base : String) : (s.fresh base).2.reserved = s.reserved :=
  rfl

/-- The number that is found is not below the one that the search began with. -/
theorem le_firstFree (reserved : NameSet) (stem : String) (k : Nat) (n : Int) :
    n ≤ firstFree reserved stem k n := by
  induction k generalizing n with
  | zero => simp [firstFree]
  | succ k ih =>
    simp only [firstFree]
    split
    · have := ih (n + 1)
      omega
    · omega

/-- The numbers rise. -/
theorem counter_lt_fresh (s : NameSupply) (base : String) :
    s.counter < (s.fresh base).2.counter := by
  have := le_firstFree s.reserved (stem base) s.reserved.size (s.counter + 1)
  show s.counter < firstFree s.reserved (stem base) s.reserved.size (s.counter + 1)
  omega

end NameSupply

end Lambdict
