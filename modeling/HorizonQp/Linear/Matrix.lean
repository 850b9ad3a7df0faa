/-
  HorizonQp.Linear.Matrix — dense matrices and ways to read them.

  A matrix holds its entries column by column. A `View` reads the same entries otherwise:
  transposed, or as the symmetric matrix whose one triangle is the triangle of the
  leading square block. `Order` says how a plain array of numbers fills a matrix, column
  by column or row by row; `Order.coords` undoes `Order.index` (`Order.coords_index`).

  The entries of a new matrix (`zeros?`, `identity?`) have to fit one allocation. Their
  number is a word, so a shape with more entries than a word counts gives a matrix that
  lacks most of them. Such a matrix can be held, but no kernel can walk it (`filled?`).
-/

import HorizonQp.Scalar
import HorizonQp.Word

namespace HorizonQp.Linear

/-- How a plain array fills an `m × n` matrix. -/
inductive Order where
  | columnMajor
  | rowMajor
  deriving DecidableEq, Repr

namespace Order

/-- The place in the array of entry `(i, j)`. -/
def index (order : Order) (m n i j : Nat) : Nat :=
  match order with
  | .columnMajor => i + j * m
  | .rowMajor => i * n + j

/-- The entry at place `k` of the array. -/
def coords (order : Order) (m n k : Nat) : Nat × Nat :=
  match order with
  | .columnMajor => (k % m, k / m)
  | .rowMajor => (k / n, k % n)

theorem coords_index (order : Order) {m n i j : Nat} (hi : i < m) (hj : j < n) :
    order.coords m n (order.index m n i j) = (i, j) := by
  have hm : 0 < m := by omega
  have hn : 0 < n := by omega
  cases order
  · simp only [coords, index, Nat.add_mul_mod_self_right, Nat.mod_eq_of_lt hi, Nat.add_mul_div_right _ _ hm,
      Nat.div_eq_of_lt hi, Nat.zero_add]
  · simp only [coords, index, Nat.add_comm (i * n) j, Nat.add_mul_mod_self_right, Nat.mod_eq_of_lt hj,
      Nat.add_mul_div_right _ _ hn, Nat.div_eq_of_lt hj, Nat.zero_add]

end Order

/-- The triangle of a symmetric matrix that is held. -/
inductive Triangle where
  | upper
  | lower
  deriving DecidableEq, Repr

/-- A matrix whose entries lie column by column. -/
structure Matrix (α : Type) where
  rows : Nat
  cols : Nat
  data : List α
  deriving DecidableEq, Repr

/-- A way to read a matrix. -/
inductive View where
  | plain
  | transposed
  | symmetric (triangle : Triangle)
  deriving DecidableEq, Repr

namespace Matrix

variable {α β : Type}

/-- The matrix has as many entries as its shape says. -/
def WellShaped (A : Matrix α) : Prop := A.data.length = A.rows * A.cols

/-- No entry of the shape is missing. -/
def Filled (A : Matrix α) : Prop := A.rows * A.cols ≤ A.data.length

instance (A : Matrix α) : Decidable A.Filled := inferInstanceAs (Decidable (_ ≤ _))

/-- The matrix, for what walks all of it. -/
def filled? (A : Matrix α) : Option (Matrix α) := if A.Filled then some A else none

/-- How many entries there are, as a word. -/
def count (A : Matrix α) : Nat := Word.wrap A.data.length

/-- A matrix with the given entries, if they are as many as the shape says. -/
def ofData? (rows cols : Nat) (data : List α) : Option (Matrix α) :=
  if Word.wrap (rows * cols) = data.length then some ⟨rows, cols, data⟩ else none

/-- The matrix with entry `f i j` at `(i, j)`. -/
def ofFn (rows cols : Nat) (f : Nat → Nat → α) : Matrix α :=
  ⟨rows, cols, (List.range (rows * cols)).map fun k => f (k % rows) (k / rows)⟩

/-- Zeros, as many as a word counts for the shape. -/
def zeros [Zero α] (rows cols : Nat) : Matrix α := ⟨rows, cols, List.replicate (Word.wrap (rows * cols)) 0⟩

def identity [Zero α] [One α] (n : Nat) : Matrix α := ofFn n n fun i j => if i = j then 1 else 0

def zeros? [Zero α] [Stored α] (rows cols : Nat) : Option (Matrix α) :=
  if Word.allocates (Stored.width α) (Word.wrap (rows * cols)) then some (zeros rows cols) else none

/-- The identity, whose diagonal has to be there. -/
def identity? [Zero α] [One α] [Stored α] (n : Nat) : Option (Matrix α) :=
  if Word.allocates (Stored.width α) (n * n) then some (identity n) else none

/-- A matrix given by its rows, all as long as the first. -/
def ofRows [Zero α] (rows : List (List α)) : Matrix α :=
  ofFn rows.length (rows.headD []).length fun i j => (rows.getD i []).getD j 0

def map (f : α → β) (A : Matrix α) : Matrix β := ⟨A.rows, A.cols, A.data.map f⟩

def isSquare (A : Matrix α) : Bool := A.rows == A.cols

/-- The place of entry `(i, j)` among the entries. -/
def index (A : Matrix α) (i j : Nat) : Nat := i + A.rows * j

def entry? (A : Matrix α) (i j : Nat) : Option α := A.data[A.index i j]?

def entry [Zero α] (A : Matrix α) (i j : Nat) : α := A.data.getD (A.index i j) 0

/-- The matrix with `x` at `(i, j)`. The shape is not looked at. -/
def set? (A : Matrix α) (i j : Nat) (x : α) : Option (Matrix α) :=
  let k := Word.wrap (A.index i j)
  if k < A.data.length then some { A with data := A.data.set k x } else none

/-- The entries of column `j`. -/
def col (A : Matrix α) (j : Nat) : List α := (A.data.drop (j * A.rows)).take A.rows

/-- Column `j`, as many entries as there are rows from where a word counts its start. -/
def col? (A : Matrix α) (j : Nat) : Option (List α) :=
  let start := Word.wrap (j * A.rows)
  if j < A.cols ∧ start + A.rows ≤ A.data.length then some ((A.data.drop start).take A.rows) else none

def columns (A : Matrix α) : List (List α) := (List.range A.cols).map A.col

/-- The identity in place of a square matrix. -/
def setIdentity? [Zero α] [One α] (A : Matrix α) : Option (Matrix α) :=
  if A.isSquare ∧ A.Filled then some (identity A.rows) else none

/-- New entries in place of the old, if they are as many. -/
def setData? (A : Matrix α) (data : List α) : Option (Matrix α) :=
  if A.data.length = data.length then some { A with data } else none

end Matrix

namespace View

variable {α : Type}

/-- The rows and columns that the view shows. -/
def size (view : View) (A : Matrix α) : Nat × Nat :=
  match view with
  | .plain => (A.rows, A.cols)
  | .transposed => (A.cols, A.rows)
  | .symmetric _ => (A.cols, A.cols)

/-- The entry of the matrix that the view shows at `(i, j)`. -/
def source (view : View) (i j : Nat) : Nat × Nat :=
  match view with
  | .plain => (i, j)
  | .transposed => (j, i)
  | .symmetric .upper => if i ≤ j then (i, j) else (j, i)
  | .symmetric .lower => if j ≤ i then (i, j) else (j, i)

/-- The place among the matrix's entries of what the view shows at `(i, j)`. -/
def index (view : View) (A : Matrix α) (i j : Nat) : Nat :=
  let (r, c) := view.source i j
  A.index r c

/-- What the view shows at `(i, j)`. The shape is not looked at, and a place past a word
    starts over. -/
def entry? (view : View) (A : Matrix α) (i j : Nat) : Option α :=
  A.data[view.index A i j]?.or A.data[Word.wrap (view.index A i j)]?

def entry [Zero α] (view : View) (A : Matrix α) (i j : Nat) : α := A.data.getD (view.index A i j) 0

/-- Every entry that the view shows, row by row. -/
def table? (view : View) (A : Matrix α) : Option (List (List α)) := do
  let A ← A.filled?
  let (m, n) := view.size A
  (List.range m).mapM fun i => (List.range n).mapM fun j => view.entry? A i j

end View

end HorizonQp.Linear
