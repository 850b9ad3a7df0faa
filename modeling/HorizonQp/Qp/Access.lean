/-
  HorizonQp.Qp.Access — setting and getting a field at a stage.

  A call names a field and a stage, and gives the entries of the field, or the length of
  the buffer to receive them. It is refused when the field is of another kind than the
  accessor takes, when the stage has no such field, or when the length is not the field's,
  in this order; `setIndex` checks the entries before their number. A refused call
  changes nothing.

  `set` and `get` take a field of numbers by its name, matrices column by column.
-/

import HorizonQp.Qp.Basic
import HorizonQp.Qp.Slot

namespace HorizonQp.Qp

open Linear (Order)

variable {α : Type} [Stored α]

/-! ## Matrices -/

def setMatrix (q : Qp α) (f : Field) (stage : Nat) (data : List α) (order : Order) : Attempt QpError (Qp α) := do
  let s ← q.dims.matSlot f stage
  .ofExcept (checkLength (s.rows * s.cols) data.length)
  let M ← .require (q.matrix? s.block stage)
  let stored ← .require (s.store? order data M)
  .require (q.writeMatrix? s.block stage stored)

def getMatrix [Zero α] (q : Qp α) (f : Field) (stage len : Nat) (order : Order) : Attempt QpError (List α) := do
  let s ← q.dims.matSlot f stage
  .ofExcept (checkLength (s.rows * s.cols) len)
  let M ← .require (q.matrix? s.block stage)
  .require (s.load? order M)

/-! ## Vectors -/

/-- Copies a field into its part of the last row of a matrix. -/
def setAugmented (q : Qp α) (stage : Nat) (data : List α) : Option (MatBlock × Nat) → Attempt QpError (Qp α)
  | none => pure q
  | some (block, col0) => do
    let M ← .require (q.matrix? block stage)
    let s := MatSlot.lastRow block M.rows col0 data.length
    let stored ← .require (s.store? .columnMajor data M)
    .require (q.writeMatrix? block stage stored)

def setVector [Neg α] (q : Qp α) (f : Field) (stage : Nat) (data : List α) : Attempt QpError (Qp α) := do
  let s ← q.dims.vecSlot f stage
  .ofExcept (checkLength s.len data.length)
  let x ← .require (q.vector? s.block stage)
  let x ← .require (s.store? data x)
  let q ← .require (q.writeVector? s.block stage x)
  q.setAugmented stage data s.augmented

def getVector [Neg α] (q : Qp α) (f : Field) (stage len : Nat) : Attempt QpError (List α) := do
  let s ← q.dims.vecSlot f stage
  .ofExcept (checkLength s.len len)
  let x ← .require (q.vector? s.block stage)
  .require (s.load? x)

/-! ## Indices -/

def setIndex (q : Qp α) (f : Field) (stage : Nat) (data : List Nat) : Attempt QpError (Qp α) := do
  .ofExcept (f.expectKind .index)
  .ofExcept (q.dims.checkFieldStage f stage)
  let limit ← .require (q.dims.indexLimit? f stage)
  .ofExcept (checkIndices data limit)
  let (block, _) ← .require (q.dims.idxSlot? f stage)
  let held ← .require (q.indices? block stage)
  .ofExcept (checkLength held.length data.length)
  .require (q.writeIndices? block stage data)

def getIndex (q : Qp α) (f : Field) (stage len : Nat) : Attempt QpError (List Nat) := do
  .ofExcept (f.expectKind .index)
  .ofExcept (q.dims.checkFieldStage f stage)
  let (block, _) ← .require (q.dims.idxSlot? f stage)
  let held ← .require (q.indices? block stage)
  .ofExcept (checkLength held.length len)
  pure held

/-! ## By name -/

/-- The field of the given name. -/
def fieldNamed (name : String) : Attempt QpError Field := .orReport (.unknownField name) (Field.ofName? name)

def set [Neg α] (q : Qp α) (name : String) (stage : Nat) (data : List α) : Attempt QpError (Qp α) := do
  let f ← fieldNamed name
  match f.kind with
  | .matrix => q.setMatrix f stage data .columnMajor
  | .vector => q.setVector f stage data
  | .index => .fail (.fieldKind f .floatingPoint)

def get [Zero α] [Neg α] (q : Qp α) (name : String) (stage len : Nat) : Attempt QpError (List α) := do
  let f ← fieldNamed name
  match f.kind with
  | .matrix => q.getMatrix f stage len .columnMajor
  | .vector => q.getVector f stage len
  | .index => .fail (.fieldKind f .floatingPoint)

end HorizonQp.Qp
