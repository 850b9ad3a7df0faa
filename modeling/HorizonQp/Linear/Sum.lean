/-
  HorizonQp.Linear.Sum — sums by halves.

  Fewer than `block` terms are added from left to right, starting from zero. More are cut
  in the middle and the sums of the two parts added (`accumulate`). So every term is
  added once and in its place, and rounding errors grow with the depth of the cuts
  instead of the number of terms. A sum of products (`dot`) takes each product as a term.
-/

import HorizonQp.Scalar

namespace HorizonQp.Linear

variable {α β : Type}

/-- Runs shorter than this are added from left to right. -/
def block : Nat := 16

/-- The sum of the terms `f x`. -/
def accumulate [Zero α] [Add α] (f : β → α) (xs : List β) : α :=
  if xs.length < block then xs.foldl (fun acc x => acc + f x) 0
  else accumulate f (xs.take (xs.length / 2)) + accumulate f (xs.drop (xs.length / 2))
termination_by xs.length
decreasing_by all_goals simp only [List.length_take, List.length_drop, block] at *; omega

def sum [Zero α] [Add α] (xs : List α) : α := accumulate id xs

/-- The elementwise product. -/
def mul [Mul α] (xs ys : List α) : List α := List.zipWith (· * ·) xs ys

def dot [Zero α] [Add α] [Mul α] (xs ys : List α) : α := accumulate (fun (x, y) => x * y) (xs.zip ys)

end HorizonQp.Linear
