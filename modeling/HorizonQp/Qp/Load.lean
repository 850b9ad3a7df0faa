/-
  HorizonQp.Qp.Load — loading a whole problem at once.

  `load` takes the data of every stage. A float array may be left empty; an index array
  may not. Every length, stage and index is checked before anything is written
  (`checkStages`), so a refused load changes nothing. Then every number of the problem is
  cleared and the given fields are set one after the other (`writeStages`). What was left
  empty is zero afterwards, the offsets `m` included.
-/

import HorizonQp.Qp.Access

namespace HorizonQp

open Linear (Order)

/-- The data of a stage, each matrix in the order given with the call, upper bounds as
    they are meant. -/
structure StageData (α : Type) where
  A : List α
  B : List α
  b : List α
  Q : List α
  S : List α
  R : List α
  q : List α
  r : List α
  idxb : List Nat
  lb : List α
  ub : List α
  C : List α
  D : List α
  lg : List α
  ug : List α
  idxs : List Nat
  Zl : List α
  Zu : List α
  zl : List α
  zu : List α
  ls : List α
  us : List α
  deriving DecidableEq, Repr

namespace StageData

variable {α : Type}

/-- The fields of numbers in the order they are checked and written. -/
def floatFields (s : StageData α) : List (Field × List α) :=
  [(.A, s.A), (.B, s.B), (.b, s.b), (.Q, s.Q), (.S, s.S), (.R, s.R), (.q, s.q), (.r, s.r),
   (.lb, s.lb), (.ub, s.ub), (.C, s.C), (.D, s.D), (.lg, s.lg), (.ug, s.ug),
   (.Zl, s.Zl), (.Zu, s.Zu), (.zl, s.zl), (.zu, s.zu), (.ls, s.ls), (.us, s.us)]

def indexFields (s : StageData α) : List (Field × List Nat) := [(.idxb, s.idxb), (.idxs, s.idxs)]

/-- The fields of numbers that are given. -/
def givenFields (s : StageData α) : List (Field × List α) := s.floatFields.filter fun (_, data) => !data.isEmpty

end StageData

namespace Dims

variable {α : Type} (d : Dims)

def checkFloats (stage : Nat) (f : Field) (data : List α) : Attempt QpError Unit := do
  let len ← d.fieldLength f stage
  .ofExcept (checkLength len data.length)

def checkIndexField (stage : Nat) (f : Field) (data : List Nat) : Attempt QpError Unit := do
  let len ← d.fieldLength f stage
  .ofExcept (checkLength len data.length)
  let limit ← .require (d.indexLimit? f stage)
  .ofExcept (checkIndices data limit)

def checkStageData (stage : Nat) (s : StageData α) : Attempt QpError Unit := do
  s.givenFields.forM fun (f, data) => d.checkFloats stage f data
  s.indexFields.forM fun (f, data) => d.checkIndexField stage f data

/-- The checks of the data of the stages from `stage` on. -/
def checkStages (stage : Nat) : List (StageData α) → Attempt QpError Unit
  | [] => pure ()
  | s :: rest => do
    d.checkStageData stage s
    checkStages (stage + 1) rest

end Dims

namespace Qp

variable {α : Type} [Stored α] [Neg α]

def setFloats (order : Order) (stage : Nat) (q : Qp α) (f : Field) (data : List α) : Attempt QpError (Qp α) :=
  match f.kind with
  | .matrix => q.setMatrix f stage data order
  | _ => q.setVector f stage data

def writeStage (order : Order) (stage : Nat) (s : StageData α) (q : Qp α) : Attempt QpError (Qp α) := do
  let q ← s.givenFields.foldlM (fun q (f, data) => setFloats order stage q f data) q
  s.indexFields.foldlM (fun q (f, data) => q.setIndex f stage data) q

/-- Sets the given fields of the stages from `stage` on. -/
def writeStages (order : Order) (stage : Nat) : List (StageData α) → Qp α → Attempt QpError (Qp α)
  | [], q => pure q
  | s :: rest, q => do writeStages order (stage + 1) rest (← writeStage order stage s q)

/-- Every number of the problem becomes zero. -/
def cleared (q : Qp α) : Option (Qp α) := do pure { q with block := ← clearNumbers? q.layout q.block }

def load (q : Qp α) (stages : List (StageData α)) (order : Order) : Attempt QpError (Qp α) := do
  .ofExcept (checkLength q.dims.stages stages.length)
  q.dims.checkStages 0 stages
  let q ← .require q.cleared
  writeStages order 0 stages q

end Qp

end HorizonQp
