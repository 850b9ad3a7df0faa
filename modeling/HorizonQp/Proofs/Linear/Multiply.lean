/-
  HorizonQp.Proofs.Linear.Multiply — the products of a matrix with a vector, in place.

  A `Multiply` is one of the five products `a V x + b y`: with the matrix, with its
  transpose, with the symmetric matrix of one triangle, and the first two once more with
  the leading rows alone. All of them check the lengths of the operands before anything
  else (`Takes`), and then work on `y` step by step:

  - by columns: `y` is scaled, and each column is added to it;
  - by rows of the transpose: each entry of `y` is replaced;
  - by a triangle: `y` is scaled, and in each column every held entry off the diagonal is
    added in its own place and into a sum on the side, which goes to the diagonal at the
    end.

  Each step has checks of its own: whether the column is there, whether an index is in
  range, whether two vectors are equally long. None of them fails after the first check
  (`leaves_eq`), so a product does everything or nothing.
-/

import HorizonQp.Proofs.Exact.Kernels
import HorizonQp.Proofs.Linear.Entries
import HorizonQp.Proofs.Outcome

namespace HorizonQp.Linear

variable {α : Type}

/-! ## Vectors changed in place -/

/-- The vector with entry `i` changed, which must be there. -/
def modify? (i : Nat) (f : α → α) (y : List α) : Option (List α) := if i < y.length then some (y.modify i f) else none

theorem modify?_eq_some {i : Nat} {f : α → α} {y : List α} (h : i < y.length) : modify? i f y = some (y.modify i f) :=
  if_pos h

/-- Changes at different places change each entry once. -/
theorem foldl_modify (f : Nat → α → α) {is : List Nat} (h : is.Nodup) (y : List α) :
    is.foldl (fun y i => y.modify i (f i)) y = y.mapIdx fun i yi => if i ∈ is then f i yi else yi := by
  induction is generalizing y with
  | nil => exact List.ext_getElem (by simp) fun i _ _ => by simp
  | cons i is ih =>
    obtain ⟨hi, his⟩ := List.nodup_cons.mp h
    rw [List.foldl_cons, ih his]
    apply List.ext_getElem (by simp)
    intro k _ _
    rw [List.getElem_mapIdx, List.getElem_mapIdx, List.getElem_modify]
    by_cases hk : i = k
    · subst hk
      rw [if_neg hi, if_pos rfl, if_pos List.mem_cons_self]
    · have hmem : k ∈ i :: is ↔ k ∈ is := by simp [Ne.symm hk]
      simp only [hmem, if_neg hk]

/-- Replacing every entry, one after the other. -/
theorem foldl_replace (f : Nat → α) {y : List α} {n : Nat} (hy : y.length = n) :
    (List.range n).foldl (fun y i => y.modify i fun _ => f i) y = (List.range n).map f := by
  rw [foldl_modify (fun i _ => f i) List.nodup_range]
  apply List.ext_getElem (by simp [hy])
  intro i hi _
  have hi : i < n := by simpa [hy] using hi
  rw [List.getElem_mapIdx, if_pos (List.mem_range.mpr hi), List.getElem_map, List.getElem_range]

/-! ## The family -/

/-- A product of a matrix with a vector. -/
inductive Multiply where
  | plain
  | transposed
  | symmetric (triangle : Triangle)
  /-- With the leading rows, as many as `y` is long. -/
  | leading
  /-- With the transpose of the leading rows, as many as `x` is long. -/
  | leadingTransposed
  deriving DecidableEq, Repr

namespace Matrix

/-- Column `j`, all of whose entries must be there. -/
def slice? (A : Matrix α) (j : Nat) : Option (List α) :=
  if j < A.cols ∧ (j + 1) * A.rows ≤ A.data.length then some (A.col j) else none

theorem slice?_eq_some {A : Matrix α} (hA : A.WellShaped) {j : Nat} (hj : j < A.cols) : A.slice? j = some (A.col j) := by
  have hle : (j + 1) * A.rows ≤ A.rows * A.cols := by
    rw [Nat.mul_comm A.rows]
    exact Nat.mul_le_mul_right A.rows hj
  exact if_pos ⟨hj, hA ▸ hle⟩

end Matrix

namespace Multiply

/-- The operands are as long as the shape of the matrix asks for. -/
def Takes (p : Multiply) (A : Matrix α) (x y : List α) : Prop :=
  match p with
  | plain => A.cols = x.length ∧ A.rows = y.length
  | transposed => A.rows = x.length ∧ A.cols = y.length
  | symmetric _ => A.cols ≤ A.rows ∧ A.cols = x.length ∧ A.cols = y.length
  | leading => A.cols = x.length ∧ y.length ≤ A.rows
  | leadingTransposed => A.cols = y.length ∧ x.length ≤ A.rows

instance (p : Multiply) (A : Matrix α) (x y : List α) : Decidable (p.Takes A x y) :=
  match p with
  | plain | transposed | symmetric _ | leading | leadingTransposed => instDecidableAnd

/-- How the product reads the matrix. -/
def view : Multiply → View
  | plain | leading => .plain
  | transposed | leadingTransposed => .transposed
  | symmetric t => .symmetric t

theorem Takes.of_plain {p : Multiply} {A : Matrix α} {x y : List α} (h : p.Takes A x y) (hp : p.view = .plain) :
    A.cols = x.length ∧ y.length ≤ A.rows := by
  cases p with
  | plain => exact ⟨h.1, Nat.le_of_eq h.2.symm⟩
  | leading => exact h
  | _ => cases hp

theorem Takes.of_transposed {p : Multiply} {A : Matrix α} {x y : List α} (h : p.Takes A x y) (hp : p.view = .transposed) :
    x.length ≤ A.rows ∧ A.cols = y.length := by
  cases p with
  | transposed => exact ⟨Nat.le_of_eq h.1.symm, h.2⟩
  | leadingTransposed => exact ⟨h.2, h.1⟩
  | _ => cases hp

variable [Scalar α] (p : Multiply) (A : Matrix α) (a : α) (x : List α) (b : α) (y : List α)

def times : List α :=
  match p with
  | plain | leading => A.product a x b y
  | transposed | leadingTransposed => A.transposedProduct a x b y
  | symmetric t => A.symmetricProduct t a x b y

def times? : Option (List α) :=
  match p with
  | plain => A.product? a x b y
  | transposed => A.transposedProduct? a x b y
  | symmetric t => A.symmetricProduct? t a x b y
  | leading => A.leadingProduct? a x b y
  | leadingTransposed => A.leadingTransposedProduct? a x b y

theorem times?_eq : p.times? A a x b y = if p.Takes A x y then some (p.times A a x b y) else none := by
  cases p <;> rfl

/-! ## The steps -/

/-- Adds `c` times a column to the entries of `y` beside it. -/
def addColumn (c : α) (y column : List α) : List α :=
  List.zipWith (fun yi entry => yi + entry * c) y column ++ y.drop column.length

def addStep (j : Nat) (y : List α) : Attempt Empty (List α) := do
  let column ← .require (A.slice? j)
  pure (addColumn (a * x.getD j 0) y column)

def byColumns : List (List α → Attempt Empty (List α)) :=
  (fun y => pure (scaled b y)) :: (List.range x.length).map (addStep A a x)

/-- The entries of a column that meet the entries of `x`. -/
def cut? (column : List α) : Option (List α) :=
  match p with
  | leadingTransposed => if x.length ≤ column.length then some (column.take x.length) else none
  | _ => some column

def replaceStep (j : Nat) (y : List α) : Attempt Empty (List α) := do
  let column ← .require (A.slice? j)
  let met ← .require (p.cut? x column)
  let sum ← .require (dot? met x)
  .require (modify? j (plusScaled (a * sum) b) y)

/-- The steps over the `n` entries of a vector. -/
def byRows (n : Nat) : List (List α → Attempt Empty (List α)) := (List.range n).map (p.replaceStep A a x b)

/-- A vector that is worked on, and a sum on the side. -/
structure Pass (α : Type) where
  y : List α
  acc : α

/-- The beginning of column `j`: a new sum. -/
def beginStep (j : Nat) (s : Pass α) : Attempt Empty (Pass α) := do
  let _ ← .require (A.slice? j)
  let _ ← .require x[j]?
  pure { s with acc := 0 }

/-- A held entry in its own place. -/
def ownStep (j i : Nat) (s : Pass α) : Attempt Empty (Pass α) := do
  let entry ← .require (A.col j)[i]?
  let y ← .require (modify? i (· + entry * (a * x.getD j 0)) s.y)
  pure { s with y }

/-- A held entry in the reflected place. -/
def reflectedStep (j i : Nat) (s : Pass α) : Attempt Empty (Pass α) := do
  let entry ← .require (A.col j)[i]?
  let xi ← .require x[i]?
  pure { s with acc := s.acc + entry * xi }

/-- The end of column `j`: its diagonal entry, and the sum. -/
def diagonalStep (j : Nat) (s : Pass α) : Attempt Empty (Pass α) := do
  let entry ← .require (A.col j)[j]?
  let y ← .require (modify? j (· + (entry * (a * x.getD j 0) + a * s.acc)) s.y)
  pure { s with y }

/-- The rows that are held of column `j`, off the diagonal. -/
def heldRows (t : Triangle) (j : Nat) : List Nat := (List.range A.cols).filter (t.holds · j)

omit [Scalar α] in
theorem nodup_heldRows (t : Triangle) (j : Nat) : (heldRows A t j).Nodup := List.nodup_range.filter _

def heldColumn (t : Triangle) (j : Nat) : List (Pass α → Attempt Empty (Pass α)) :=
  beginStep A x j ::
    (heldRows A t j).flatMap (fun i => [ownStep A a x j i, reflectedStep A x j i]) ++ [diagonalStep A a x j]

def byTriangle (t : Triangle) : List (Pass α → Attempt Empty (Pass α)) :=
  (fun s => pure { s with y := scaled b s.y }) :: (List.range A.cols).flatMap (heldColumn A a x t)

/-- The check of the operands, before anything is done. -/
def check {σ : Type} (s : σ) : Attempt Empty σ := if p.Takes A x y then pure s else .breach

/-- What the product leaves of `y`, and how it ends. -/
def leaves : List α × Attempt Empty Unit :=
  match p with
  | plain | leading => inPlace (p.check A x y :: byColumns A a x b) y
  | transposed | leadingTransposed => inPlace (p.check A x y :: p.byRows A a x b y.length) y
  | symmetric t =>
    let (s, ending) := inPlace (p.check A x y :: byTriangle A a x b t) ⟨y, 0⟩
    (s.y, ending)

/-! ## Nothing fails after the check -/

theorem addColumn_eq {c : α} {y column : List α} (h : y.length ≤ column.length) :
    addColumn c y column = List.zipWith (fun yi entry => yi + entry * c) y column := by
  rw [addColumn, List.drop_eq_nil_of_le h, List.append_nil]

section Answers

variable {A} {x y} (hA : A.WellShaped)
include hA

theorem inTurn_byColumns (hx : A.cols = x.length) (hy : y.length ≤ A.rows) :
    inTurn (byColumns A a x b) y = .ok (A.product a x b y) := by
  rw [byColumns, inTurn_cons, Matrix.product, Matrix.columns_zip 0 hx, List.foldl_map, hx]
  refine inTurn_map (P := fun y' => y'.length = y.length) (fun j hj y' hy' => ?_) (Matrix.length_scaled b y)
  have hj : j < A.cols := hx ▸ List.mem_range.mp hj
  have hcol := Matrix.length_col hA.filled hj
  constructor
  · rw [addStep, Matrix.slice?_eq_some hA hj, Attempt.require_some, Attempt.ok_bind, addColumn_eq (by omega)]
    rfl
  · rw [List.length_zipWith]
    omega

omit [Scalar α] in
/-- What of a column meets the entries of `x`. -/
theorem cut?_eq_some {j : Nat} (hj : j < A.cols) (hx : p.Takes A x y) (hp : p.view = .transposed) :
    p.cut? x (A.col j) = some ((A.col j).take x.length) := by
  have hcol := Matrix.length_col hA.filled hj
  cases p with
  | transposed => exact congrArg some (List.take_of_length_le (by rw [hcol, hx.1])).symm
  | leadingTransposed => exact if_pos (hcol ▸ hx.2)
  | _ => cases hp

theorem inTurn_byRows (h : p.Takes A x y) (hp : p.view = .transposed) :
    inTurn (p.byRows A a x b y.length) y = .ok (A.transposedProduct a x b y) := by
  obtain ⟨hx, hy⟩ := h.of_transposed hp
  -- every entry is replaced once, so the steps are a map
  have hall : A.transposedProduct a x b y =
      (List.range y.length).foldl
        (fun y j => y.modify j (plusScaled (a * dot ((A.col j).take x.length) x) b)) y := by
    rw [foldl_modify (fun j => plusScaled (a * dot ((A.col j).take x.length) x) b) List.nodup_range]
    apply List.ext_getElem
    · rw [Matrix.length_transposedProduct a x b hy, List.length_mapIdx]
    · intro j hj _
      rw [Matrix.length_transposedProduct a x b hy] at hj
      simp only [Matrix.transposedProduct, Matrix.columns, List.getElem_zipWith, List.getElem_map, List.getElem_range,
        List.getElem_mapIdx, List.mem_range, hj, if_true]
  rw [hall]
  refine inTurn_map (P := fun y' => y'.length = y.length) (fun j hj y' hy' => ?_) rfl
  have hj : j < A.cols := hy ▸ List.mem_range.mp hj
  have hdot : dot? ((A.col j).take x.length) x = some (dot ((A.col j).take x.length) x) := by
    refine if_pos ?_
    rw [List.length_take, Matrix.length_col hA.filled hj, Nat.min_eq_left hx]
  constructor
  · simp only [replaceStep, Matrix.slice?_eq_some hA hj, p.cut?_eq_some hA hj h hp, hdot, Attempt.require_some,
      Attempt.ok_bind, modify?_eq_some (show j < y'.length by omega)]
  · rw [List.length_modify, hy']

/-! ### From one triangle -/

/-- What a held entry leaves: itself in its place, and its reflection in the sum. -/
def rowPass (A : Matrix α) (a : α) (x : List α) (j : Nat) (s : Pass α) (i : Nat) : Pass α :=
  ⟨s.y.modify i (· + (A.col j).getD i 0 * (a * x.getD j 0)), s.acc + (A.col j).getD i 0 * x.getD i 0⟩

omit hA in
theorem foldl_rowPass (j : Nat) (is : List Nat) (s : Pass α) :
    is.foldl (rowPass A a x j) s =
      ⟨is.foldl (fun y i => y.modify i (· + (A.col j).getD i 0 * (a * x.getD j 0))) s.y,
        is.foldl (fun acc i => acc + (A.col j).getD i 0 * x.getD i 0) s.acc⟩ := by
  induction is generalizing s with
  | nil => rfl
  | cons i is ih => exact ih _

theorem inTurn_heldRows (t : Triangle) (hr : A.cols ≤ A.rows) (hx : A.cols = x.length) {j : Nat} (hj : j < A.cols)
    {s : Pass α} (hs : s.y.length = A.cols) :
    inTurn ((heldRows A t j).flatMap fun i => [ownStep A a x j i, reflectedStep A x j i]) s =
      .ok ((heldRows A t j).foldl (rowPass A a x j) s) := by
  refine inTurn_flatMap (P := fun s => s.y.length = A.cols) (fun i hi s hs => ⟨?_, ?_⟩) hs
  · have hi : i < A.cols := List.mem_range.mp (List.mem_of_mem_filter hi)
    have hentry := getElem?_eq_getD (A.col j) 0 (show i < (A.col j).length by rw [Matrix.length_col hA.filled hj]; omega)
    have hxi := getElem?_eq_getD x 0 (hx ▸ hi)
    rw [inTurn_cons, ownStep, hentry, Attempt.require_some, Attempt.ok_bind, modify?_eq_some (hs ▸ hi),
      Attempt.require_some, Attempt.ok_bind]
    show inTurn [reflectedStep A x j i] _ = _
    rw [inTurn_single, reflectedStep, hentry, hxi]
    rfl
  · rw [rowPass, List.length_modify, hs]

omit [Scalar α] hA in
/-- The held rows of a column, and then its diagonal, which is not one of them: an entry is
    changed once at most. -/
theorem modify_heldRows (t : Triangle) (f : Nat → α → α) (g : α → α) (j : Nat) {y : List α} (hy : y.length = A.cols) :
    (y.mapIdx fun i yi => if i ∈ heldRows A t j then f i yi else yi).modify j g =
      y.mapIdx fun i yi => if t.holds i j then f i yi else if i = j then g yi else yi := by
  apply List.ext_getElem (by simp)
  intro i hi _
  have hi : i < A.cols := by simpa [hy] using hi
  have hheld : i ∈ heldRows A t j ↔ t.holds i j = true := by simp [heldRows, hi]
  simp only [List.getElem_modify, List.getElem_mapIdx, hheld]
  by_cases hij : j = i
  · subst hij
    simp
  · rw [if_neg hij, if_neg (Ne.symm hij)]

/-- What column `j` leaves: each held entry added in its place, and the sum of the reflected
    ones on the diagonal. -/
def columnPass (A : Matrix α) (a : α) (x : List α) (t : Triangle) (j : Nat) (s : Pass α) : Pass α :=
  let sum := Matrix.heldDot t j (A.col j) x
  { y := s.y.mapIdx fun i yi =>
      if t.holds i j then yi + (A.col j).getD i 0 * (a * x.getD j 0)
      else if i = j then yi + ((A.col j).getD j 0 * (a * x.getD j 0) + a * sum)
      else yi
    acc := sum }

theorem inTurn_heldColumn (t : Triangle) (hr : A.cols ≤ A.rows) (hx : A.cols = x.length) {j : Nat} (hj : j < A.cols)
    {s : Pass α} (hs : s.y.length = A.cols) :
    inTurn (heldColumn A a x t j) s = .ok (columnPass A a x t j s) := by
  have hbegin : beginStep A x j s = .ok { s with acc := 0 } := by
    rw [beginStep, Matrix.slice?_eq_some hA hj, getElem?_eq_getD x 0 (hx ▸ hj)]
    rfl
  have hentry := getElem?_eq_getD (A.col j) 0 (show j < (A.col j).length by rw [Matrix.length_col hA.filled hj]; omega)
  have hrows := inTurn_heldRows a hA t hr hx hj (s := { s with acc := 0 }) hs
  rw [foldl_rowPass, foldl_modify (fun i yi => yi + (A.col j).getD i 0 * (a * x.getD j 0)) (nodup_heldRows A t j)] at hrows
  have hwrites := modify_heldRows t (fun i yi => yi + (A.col j).getD i 0 * (a * x.getD j 0))
    (· + ((A.col j).getD j 0 * (a * x.getD j 0) + a * Matrix.heldDot t j (A.col j) x)) j hs
  rw [heldColumn, List.cons_append, inTurn_cons, hbegin, Attempt.ok_bind, inTurn_append, hrows, Attempt.ok_bind,
    inTurn_single, diagonalStep, hentry, Attempt.require_some, Attempt.ok_bind,
    modify?_eq_some (by rwa [List.length_mapIdx, hs]), Attempt.require_some, Attempt.ok_bind, Attempt.pure_eq_ok, columnPass,
    ← hwrites, Matrix.heldDot, ← hx, ← heldRows]

theorem inTurn_byTriangle (t : Triangle) (hr : A.cols ≤ A.rows) (hx : A.cols = x.length) (hy : A.cols = y.length)
    (acc : α) : ∃ s, inTurn (byTriangle A a x b t) ⟨y, acc⟩ = .ok s ∧ s.y = A.symmetricProduct t a x b y := by
  have hcolumn : ∀ j ∈ List.range A.cols, ∀ s : Pass α, s.y.length = A.cols →
      inTurn (heldColumn A a x t j) s = .ok (columnPass A a x t j s) ∧ (columnPass A a x t j s).y.length = A.cols := by
    intro j hj s hs
    exact ⟨inTurn_heldColumn a hA t hr hx (List.mem_range.mp hj) hs, by rw [columnPass, List.length_mapIdx, hs]⟩
  have hpass := inTurn_flatMap (s := ⟨scaled b y, acc⟩) hcolumn (by rw [Matrix.length_scaled, hy])
  exact ⟨_, hpass, (List.foldl_hom Pass.y fun _ _ => rfl).symm⟩

end Answers

/-- A product does everything or nothing. -/
theorem leaves_eq {A : Matrix α} (hA : A.WellShaped) :
    p.leaves A a x b y = allOrNothing y (.require (p.times? A a x b y)) := by
  have refused {σ : Type} {steps : List (σ → Attempt Empty σ)} (s : σ) (h : ¬p.Takes A x y) :
      inPlace (p.check A x y :: steps) s = (s, .error .breach) := by
    rw [inPlace, check, if_neg h]
    rfl
  have passed {σ : Type} {steps : List (σ → Attempt Empty σ)} {s s' : σ} (h : p.Takes A x y)
      (hs : inTurn steps s = .ok s') : inPlace (p.check A x y :: steps) s = (s', .ok ()) := by
    rw [inPlace, check, if_pos h]
    exact inPlace_of_ok hs
  rw [times?_eq]
  by_cases h : p.Takes A x y
  · rw [if_pos h]
    cases p with
    | plain | leading =>
      obtain ⟨hx, hy⟩ := h.of_plain rfl
      exact passed h (inTurn_byColumns a b hA hx hy)
    | transposed | leadingTransposed => exact passed h (inTurn_byRows _ a b hA h rfl)
    | symmetric t =>
      obtain ⟨s, hs, hy⟩ := inTurn_byTriangle a b hA t h.1 h.2.1 h.2.2 0
      rw [leaves, passed h hs, times, ← hy]
      rfl
  · rw [if_neg h]
    cases p with
    | symmetric t =>
      rw [leaves, refused _ h]
      rfl
    | _ => exact refused y h

end Multiply

end HorizonQp.Linear
