/-
  HorizonQp.Dense — a problem of a single stage.

  Minimise `1/2 v'H v + g'v` subject to `A v = b`, `lb ≤ v[idxb] ≤ ub` and
  `lg ≤ Ct' v ≤ ug`. Only the lower triangle of `H` counts. The bounds are held as
  `d = [lb; lg; -ub; -ug]`, one `Side` behind the other; setting a side negates it when
  it is an upper one, and getting it negates it back. A side is set only by an array of
  its own length, and a refused call changes nothing.

  The inequality rows are counted in words, and so are the starts of the sides. With more
  rows than a word counts, a problem has fewer than its dimensions say.
-/

import HorizonQp.Attempt
import HorizonQp.Error
import HorizonQp.Linear.Matrix
import HorizonQp.Linear.Vector

namespace HorizonQp

open Linear (Matrix)
open Word (wrap)

structure DenseDims where
  /-- Primal variables. -/
  nv : Nat
  /-- Equality constraints. -/
  ne : Nat
  /-- Simple bounds. -/
  nb : Nat
  /-- General constraints. -/
  ng : Nat
  deriving DecidableEq, Repr

/-- Inequality rows, both sides. -/
def DenseDims.nc (d : DenseDims) : Nat := wrap (2 * (d.nb + d.ng))

structure DenseQp (α : Type) where
  dims : DenseDims
  H : Matrix α
  g : List α
  A : Matrix α
  b : List α
  Ct : Matrix α
  idxb : List Nat
  d : List α
  m : List α
  deriving DecidableEq, Repr

/-- A part of the inequality rows of a dense problem. -/
inductive Side where
  | lb
  | lg
  | ub
  | ug
  deriving DecidableEq, Repr

namespace Side

/-- The rows in front of the side. -/
def offset (d : DenseDims) : Side → Nat
  | .lb => 0
  | .lg => d.nb
  | .ub => d.nb + d.ng
  | .ug => 2 * d.nb + d.ng

/-- Where the side starts among the inequality rows. -/
def start (d : DenseDims) (side : Side) : Nat := wrap (side.offset d)

def length (d : DenseDims) : Side → Nat
  | .lb | .ub => d.nb
  | .lg | .ug => d.ng

def isUpper : Side → Bool
  | .lb | .lg => false
  | .ub | .ug => true

/-- The entries of the side in a vector packed like `d`. -/
def part {α : Type} (d : DenseDims) (side : Side) (x : List α) : List α :=
  (x.drop (side.offset d)).take (side.length d)

end Side

namespace DenseQp

variable {α : Type}

/-- A new problem with every number zero and bounds on the first `nb` variables, which must
    be there. -/
def zeros? [Zero α] [Stored α] (d : DenseDims) : Option (DenseQp α) :=
  if d.nb ≤ d.nv ∧ Word.allocates Word.width d.nb then do
    pure {
      dims := d
      H := ← Matrix.zeros? d.nv d.nv
      g := ← Linear.zeros? d.nv
      A := ← Matrix.zeros? d.ne d.nv
      b := ← Linear.zeros? d.ne
      Ct := ← Matrix.zeros? d.nv d.ng
      idxb := List.range d.nb
      d := ← Linear.zeros? d.nc
      m := ← Linear.zeros? d.nc }
  else none

/-- Sets the bounded variables. The array in place may have been replaced by one of
    another length; then there is no answer. -/
def setIdxb (q : DenseQp α) (idxb : List Nat) : Attempt QpError (DenseQp α) := do
  .ofExcept (checkLength q.dims.nb idxb.length)
  .ofExcept (checkIndices idxb q.dims.nv)
  if q.idxb.length = idxb.length then pure { q with idxb } else .breach

/-- The side of `d` with its own sign. -/
def signed [Neg α] (side : Side) (x : List α) : List α := if side.isUpper then x.map (- ·) else x

/-- Sets a side of the bounds. The vector `d` may have been replaced by one that is too
    short to hold the side; then there is no answer. -/
def set [Neg α] (q : DenseQp α) (side : Side) (x : List α) : Attempt QpError (DenseQp α) := do
  let start := side.start q.dims
  let len := side.length q.dims
  .ofExcept (checkLength len x.length)
  if start + len ≤ q.d.length then
    pure { q with d := q.d.take start ++ signed side x ++ q.d.drop (start + len) }
  else .breach

/-- Gets a side of the bounds into a buffer of `len` entries. -/
def get [Neg α] (q : DenseQp α) (side : Side) (len : Nat) : Attempt QpError (List α) := do
  .ofExcept (checkLength (side.length q.dims) len)
  if side.start q.dims + side.length q.dims ≤ q.d.length then
    pure (signed side ((q.d.drop (side.start q.dims)).take (side.length q.dims)))
  else .breach

end DenseQp

end HorizonQp
