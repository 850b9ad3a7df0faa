/-
  HorizonQp.Linear.Vector — operations on vectors.

  A vector is a list. Each operation with several operands has two forms. The plain form
  assumes that the operands match; the kernels use it where a check has gone before. The
  form with a `?` has an answer only when they match: equal lengths, and indices inside
  the vector they point into. A new vector (`zeros?`) has to fit one allocation.

  `gather` reads through an index array and `scatterAdd` adds through one, in the order
  of the array, so that a repeated index accumulates. `normInf` is the greatest absolute
  value, and is no number as soon as one entry is none; `normInfDiff` takes the greater
  of each distance and the distances before it, where a distance that is no number gives
  way.
-/

import HorizonQp.Linear.Sum
import HorizonQp.Word

namespace HorizonQp.Linear

variable {α : Type}

/-- The zero vector of `n` entries. -/
def zeros? [Zero α] [Stored α] (n : Nat) : Option (List α) :=
  if Word.allocates (Stored.width α) n then some (List.replicate n 0) else none

/-! ## Elementwise -/

def scale [Mul α] (c : α) (y : List α) : List α := y.map (· * c)

/-- The vector `a x + b y`. -/
def axpby [Add α] [Mul α] (a : α) (x : List α) (b : α) (y : List α) : List α :=
  List.zipWith (fun xi yi => a * xi + b * yi) x y

/-- The vector `src`, in place of one of `length` entries. -/
def copy? (length : Nat) (src : List α) : Option (List α) :=
  if length = src.length then some src else none

def axpby? [Add α] [Mul α] (a : α) (x : List α) (b : α) (y : List α) : Option (List α) :=
  if y.length = x.length then some (axpby a x b y) else none

/-! ## Sums of products -/

def dot? [Zero α] [Add α] [Mul α] (x y : List α) : Option α :=
  if x.length = y.length then some (dot x y) else none

/-- The products, and their sum. -/
def mulDot [Zero α] [Add α] [Mul α] (x y : List α) : List α × α := (mul x y, sum (mul x y))

def mulDot? [Zero α] [Add α] [Mul α] (length : Nat) (x y : List α) : Option (List α × α) :=
  if length = x.length ∧ length = y.length then some (mulDot x y) else none

/-! ## Through an index array -/

/-- The entries `a * x[i]` for the indices `i` of `idx`. -/
def gather [Zero α] [Mul α] (a : α) (x : List α) (idx : List Nat) : List α :=
  idx.map fun i => a * x.getD i 0

/-- Adds `a * x[j]` to entry `idx[j]` of `y`, for each `j` in turn. -/
def scatterAdd [Add α] [Mul α] (a : α) (x : List α) (idx : List Nat) (y : List α) : List α :=
  (x.zip idx).foldl (fun y (xj, i) => y.modify i (· + a * xj)) y

def gather? [Zero α] [Mul α] (length : Nat) (a : α) (x : List α) (idx : List Nat) : Option (List α) :=
  if length = idx.length ∧ idx.all (· < x.length) then some (gather a x idx) else none

def scatterAdd? [Add α] [Mul α] (a : α) (x : List α) (idx : List Nat) (y : List α) : Option (List α) :=
  if x.length = idx.length ∧ idx.all (· < y.length) then some (scatterAdd a x idx y) else none

/-! ## Measures -/

section Measures

variable [FloatingPoint α]

open FloatingPoint (magnitude isNaN lt greater)

/-- The greatest of `out` and the absolute values of the entries. -/
def normFrom (out : α) : List α → α
  | [] => out
  | x :: xs =>
    let size := magnitude x
    if isNaN size then FloatingPoint.nan else normFrom (if lt out size then size else out) xs

def normInf (x : List α) : α := normFrom 0 x

def normInfDiff (x y : List α) : α :=
  (List.zipWith (fun xi yi => magnitude (xi - yi)) x y).foldl greater 0

def normInfDiff? (x y : List α) : Option α :=
  if x.length = y.length then some (normInfDiff x y) else none

def isFinite (x : List α) : Bool := x.all FloatingPoint.isFinite

end Measures

end HorizonQp.Linear
