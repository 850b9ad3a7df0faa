/-
  HorizonQp.Qp.Slot — where a field lies in the arrays of its stage.

  A matrix field is a rectangle of one of the stage's matrices, there transposed for
  every field but `Q` and `R`. A vector field is a run of one of the stage's vectors,
  negated there when it is an upper bound. The dynamics offset `b` and the linear costs
  `r` and `q` are also kept as part of the last row of `BAbt` and of `RSQrq`, the
  `augmented` row of the vector.

  `MatSlot.userEntry?` undoes `MatSlot.blockEntry`: it is the entry of the field that
  lies at a place of the matrix, if one does (`userEntry?_blockEntry`,
  `blockEntry_of_userEntry?`). Storing replaces the entries of the slot and no other. The
  forms with a `?` have an answer exactly when the slot lies in the array (`Fits`) and the
  data are as many as the field's entries.
-/

import HorizonQp.Dims
import HorizonQp.Layout.Basic
import HorizonQp.Linear.Matrix

namespace HorizonQp

open Linear (Matrix Order)
open Word (wrap)

structure MatSlot where
  block : MatBlock
  /-- The field's own shape. -/
  rows : Nat
  cols : Nat
  /-- The corner of the rectangle in the stage's matrix. -/
  row0 : Nat
  col0 : Nat
  transposed : Bool
  deriving DecidableEq, Repr

structure VecSlot where
  block : VecBlock
  offset : Nat
  len : Nat
  negated : Bool
  /-- The matrix whose last row holds the field too, from a column on. -/
  augmented : Option (MatBlock × Nat)
  deriving DecidableEq, Repr

namespace MatSlot

variable {α : Type}

/-- The rows of the array that the slot takes. -/
def height (s : MatSlot) : Nat := if s.transposed then s.cols else s.rows

def width (s : MatSlot) : Nat := if s.transposed then s.rows else s.cols

/-- The slot lies in an `m × n` array. -/
def Fits (s : MatSlot) (m n : Nat) : Prop := s.row0 + s.height ≤ m ∧ s.col0 + s.width ≤ n

instance (s : MatSlot) (m n : Nat) : Decidable (s.Fits m n) := inferInstanceAs (Decidable (_ ∧ _))

/-- The place in the matrix of the field's entry `(i, j)`. -/
def blockEntry (s : MatSlot) (i j : Nat) : Nat × Nat :=
  if s.transposed then (s.row0 + j, s.col0 + i) else (s.row0 + i, s.col0 + j)

/-- The entry of the field at place `(r, c)` of the matrix. -/
def userEntry? (s : MatSlot) (r c : Nat) : Option (Nat × Nat) :=
  if s.row0 ≤ r ∧ s.col0 ≤ c then
    let (i, j) := if s.transposed then (c - s.col0, r - s.row0) else (r - s.row0, c - s.col0)
    if i < s.rows ∧ j < s.cols then some (i, j) else none
  else none

/-- The entries of the matrix with those of the field replaced by `data`. -/
def store (s : MatSlot) (order : Order) (data : List α) (M : Matrix α) : List α :=
  M.data.mapIdx fun k x =>
    match s.userEntry? (k % M.rows) (k / M.rows) with
    | some (i, j) => data.getD (order.index s.rows s.cols i j) x
    | none => x

/-- The entries of the field. -/
def load [Zero α] (s : MatSlot) (order : Order) (M : Matrix α) : List α :=
  (List.range (s.rows * s.cols)).map fun k =>
    let (i, j) := order.coords s.rows s.cols k
    let (r, c) := s.blockEntry i j
    M.entry r c

def store? (s : MatSlot) (order : Order) (data : List α) (M : Matrix α) : Option (List α) :=
  if s.Fits M.rows M.cols ∧ s.rows * s.cols = data.length then some (s.store order data M) else none

def load? [Zero α] (s : MatSlot) (order : Order) (M : Matrix α) : Option (List α) :=
  if s.Fits M.rows M.cols then some (s.load order M) else none

/-- The first `len` entries from column `col0` of the last row of an array of `rows` rows. -/
def lastRow (block : MatBlock) (rows col0 len : Nat) : MatSlot := ⟨block, 1, len, rows - 1, col0, false⟩

theorem userEntry?_blockEntry {s : MatSlot} {i j : Nat} (hi : i < s.rows) (hj : j < s.cols) :
    s.userEntry? (s.blockEntry i j).1 (s.blockEntry i j).2 = some (i, j) := by
  unfold userEntry? blockEntry
  cases s.transposed <;> simp [hi, hj]

theorem blockEntry_of_userEntry? {s : MatSlot} {r c i j : Nat} (h : s.userEntry? r c = some (i, j)) :
    s.blockEntry i j = (r, c) ∧ i < s.rows ∧ j < s.cols := by
  unfold userEntry? at h
  unfold blockEntry
  cases ht : s.transposed <;> simp only [ht] at h ⊢ <;> grind

end MatSlot

namespace VecSlot

variable {α : Type}

/-- The stage's vector with the entries of the field replaced by `data`. -/
def store? [Neg α] (s : VecSlot) (data x : List α) : Option (List α) :=
  if s.offset + s.len ≤ x.length ∧ s.len = data.length then
    let held := if s.negated then data.map (- ·) else data
    some (x.take s.offset ++ held ++ x.drop (s.offset + s.len))
  else none

/-- The entries of the field, with their own sign. -/
def load? [Neg α] (s : VecSlot) (x : List α) : Option (List α) :=
  if s.offset + s.len ≤ x.length then
    let held := (x.drop s.offset).take s.len
    some (if s.negated then held.map (- ·) else held)
  else none

end VecSlot

/-! ## The slots of the fields -/

namespace Field

def expectKind (f : Field) (kind : Kind) : Except QpError Unit :=
  if f.kind = kind then .ok () else .error (.fieldKind f (.kind kind))

end Field

namespace Dims

variable (d : Dims)

/-- The stage has the field: a field of the dynamics needs a next stage. -/
def checkFieldStage (f : Field) (stage : Nat) : Except QpError Unit :=
  if f.isDynamics then d.checkTransition stage else d.checkStage stage

def matSlot? (f : Field) (stage : Nat) : Option MatSlot := do
  let nu ← d.nu[stage]?
  let nx ← d.nx[stage]?
  let ng ← d.ng[stage]?
  match f with
  | .A => pure ⟨.BAbt, ← d.ne? stage, nx, nu, 0, true⟩
  | .B => pure ⟨.BAbt, ← d.ne? stage, nu, 0, 0, true⟩
  | .Q => pure ⟨.RSQrq, nx, nx, nu, nu, false⟩
  | .S => pure ⟨.RSQrq, nu, nx, nu, 0, true⟩
  | .R => pure ⟨.RSQrq, nu, nu, 0, 0, false⟩
  | .C => pure ⟨.DCt, ng, nx, nu, 0, true⟩
  | .D => pure ⟨.DCt, ng, nu, 0, 0, true⟩
  | _ => none

def vecSlot? (f : Field) (stage : Nat) : Option VecSlot := do
  let nu ← d.nu[stage]?
  let nx ← d.nx[stage]?
  let nb ← d.nb[stage]?
  let nbu ← d.nbu[stage]?
  let nbx ← d.nbx[stage]?
  let ng ← d.ng[stage]?
  let ns ← d.ns[stage]?
  match f with
  | .b => pure ⟨.b, 0, ← d.ne? stage, false, some (.BAbt, 0)⟩
  | .r => pure ⟨.rqz, 0, nu, false, some (.RSQrq, 0)⟩
  | .q => pure ⟨.rqz, nu, nx, false, some (.RSQrq, nu)⟩
  | .lb => pure ⟨.d, 0, nb, false, none⟩
  | .ub => pure ⟨.d, wrap (nb + ng), nb, true, none⟩
  | .lbu => pure ⟨.d, 0, nbu, false, none⟩
  | .ubu => pure ⟨.d, wrap (nb + ng), nbu, true, none⟩
  | .lbx => pure ⟨.d, nbu, nbx, false, none⟩
  | .ubx => pure ⟨.d, wrap (nb + ng + nbu), nbx, true, none⟩
  | .lg => pure ⟨.d, nb, ng, false, none⟩
  | .ug => pure ⟨.d, wrap (2 * nb + ng), ng, true, none⟩
  | .Zl => pure ⟨.Z, 0, ns, false, none⟩
  | .Zu => pure ⟨.Z, ns, ns, false, none⟩
  | .zl => pure ⟨.rqz, wrap (nu + nx), ns, false, none⟩
  | .zu => pure ⟨.rqz, wrap (nu + nx + ns), ns, false, none⟩
  | .ls => pure ⟨.d, wrap (2 * nb + 2 * ng), ns, false, none⟩
  | .us => pure ⟨.d, wrap (2 * nb + 2 * ng + ns), ns, false, none⟩
  | _ => none

/-- The array of an index field and its length. -/
def idxSlot? (f : Field) (stage : Nat) : Option (IdxBlock × Nat) := do
  match f with
  | .idxb => pure (.idxb, ← d.nb[stage]?)
  | .idxs => pure (.idxs, ← d.ns[stage]?)
  | _ => none

/-- What every entry of an index field must be below: `idxb` points into `[u; x]`, and
    `idxs` at the rows of the bounds and general constraints. -/
def indexLimit? (f : Field) (stage : Nat) : Option Nat :=
  match f with
  | .idxb => d.nux? stage
  | .idxs => do
    let nb ← d.nb[stage]?
    let ng ← d.ng[stage]?
    pure (wrap (nb + ng))
  | _ => none

/-- The slot of a matrix field, or why there is none. -/
def matSlot (f : Field) (stage : Nat) : Attempt QpError MatSlot := do
  .ofExcept (f.expectKind .matrix)
  .ofExcept (d.checkFieldStage f stage)
  .require (d.matSlot? f stage)

/-- The slot of a vector field, or why there is none. -/
def vecSlot (f : Field) (stage : Nat) : Attempt QpError VecSlot := do
  .ofExcept (f.expectKind .vector)
  .ofExcept (d.checkFieldStage f stage)
  .require (d.vecSlot? f stage)

/-- The rows and columns of a matrix field. -/
def matrixShape (f : Field) (stage : Nat) : Attempt QpError (Nat × Nat) := do
  let s ← d.matSlot f stage
  pure (s.rows, s.cols)

/-- The number of entries of a field. -/
def fieldLength (f : Field) (stage : Nat) : Attempt QpError Nat :=
  match f.kind with
  | .matrix => do
    let s ← d.matSlot f stage
    pure (s.rows * s.cols)
  | .vector => do
    let s ← d.vecSlot f stage
    pure s.len
  | .index => do
    .ofExcept (d.checkFieldStage f stage)
    let (_, len) ← .require (d.idxSlot? f stage)
    pure len

end Dims

end HorizonQp
