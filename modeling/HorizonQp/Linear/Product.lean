/-
  HorizonQp.Linear.Product — matrix times vector.

  Each product computes `a V x + b y` for a view `V` of a matrix. A `y` whose factor is
  zero is not read: it starts from zero instead. The order of the operations is part of
  the rule.

  - `product`: the columns of the matrix in turn, each added to all of `y`. Only the
    leading rows, as many as `y` is long, are read.
  - `transposedProduct`: for each column the sum by halves of its products with `x`.
    Only the leading rows, as many as `x` is long, are read.
  - `symmetricProduct`: the columns in turn; a held entry off the diagonal serves its own
    place and the reflected one. Only the held triangle is read.

  The forms with a `?` have an answer exactly when the operands have the lengths that
  the shape asks for.
-/

import HorizonQp.Linear.Vector
import HorizonQp.Linear.Matrix

namespace HorizonQp.Linear

/-- Whether `(row, col)` lies in the triangle, off the diagonal. -/
def Triangle.holds (triangle : Triangle) (row col : Nat) : Bool :=
  match triangle with
  | .upper => row < col
  | .lower => col < row

variable {α : Type} [Scalar α]

/-- The vector `b y`, which is zero without reading `y` when `b` is. -/
def scaled (b : α) (y : List α) : List α :=
  if Scalar.isZero b then y.map fun _ => 0 else scale b y

/-- The value `p + b y`, which is `p` without reading `y` when `b` is zero. -/
def plusScaled (p b y : α) : α := if Scalar.isZero b then p else p + b * y

namespace Matrix

def product (A : Matrix α) (a : α) (x : List α) (b : α) (y : List α) : List α :=
  (A.columns.zip x).foldl
    (fun y (column, xj) => List.zipWith (fun yi entry => yi + entry * (a * xj)) y column) (scaled b y)

def transposedProduct (A : Matrix α) (a : α) (x : List α) (b : α) (y : List α) : List α :=
  List.zipWith (fun column yj => plusScaled (a * dot (column.take x.length) x) b yj) A.columns y

/-- The sum over the held entries of a column, off the diagonal, of their products with `x`. -/
def heldDot (triangle : Triangle) (col : Nat) (column x : List α) : α :=
  ((List.range x.length).filter (triangle.holds · col)).foldl
    (fun acc row => acc + column.getD row 0 * x.getD row 0) 0

def symmetricProduct (A : Matrix α) (triangle : Triangle) (a : α) (x : List α) (b : α) (y : List α) : List α :=
  (List.range A.cols).foldl
    (fun y col =>
      let column := A.col col
      let axc := a * x.getD col 0
      let reflected := heldDot triangle col column x
      y.mapIdx fun row yi =>
        if triangle.holds row col then yi + column.getD row 0 * axc
        else if row = col then yi + (column.getD col 0 * axc + a * reflected)
        else yi)
    (scaled b y)

/-! ## With their contracts -/

def product? (A : Matrix α) (a : α) (x : List α) (b : α) (y : List α) : Option (List α) :=
  if A.cols = x.length ∧ A.rows = y.length then some (A.product a x b y) else none

def transposedProduct? (A : Matrix α) (a : α) (x : List α) (b : α) (y : List α) : Option (List α) :=
  if A.rows = x.length ∧ A.cols = y.length then some (A.transposedProduct a x b y) else none

/-- The product with the leading rows, as many as `y` is long. -/
def leadingProduct? (A : Matrix α) (a : α) (x : List α) (b : α) (y : List α) : Option (List α) :=
  if A.cols = x.length ∧ y.length ≤ A.rows then some (A.product a x b y) else none

/-- The product with the transpose of the leading rows, as many as `x` is long. -/
def leadingTransposedProduct? (A : Matrix α) (a : α) (x : List α) (b : α) (y : List α) : Option (List α) :=
  if A.cols = y.length ∧ x.length ≤ A.rows then some (A.transposedProduct a x b y) else none

def symmetricProduct? (A : Matrix α) (triangle : Triangle) (a : α) (x : List α) (b : α) (y : List α) :
    Option (List α) :=
  if A.cols ≤ A.rows ∧ A.cols = x.length ∧ A.cols = y.length then some (A.symmetricProduct triangle a x b y)
  else none

end Matrix

end HorizonQp.Linear
