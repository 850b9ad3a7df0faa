/-
  HorizonQp.Qp.Text — how a problem is written.

  A line for the horizon and the size of its block, then every stage: its dimensions, the
  dynamics where there is a next stage, the cost, the constraint matrix where there are
  general constraints, the bounds, and the soft rows with their weights where there are
  slacks.
-/

import HorizonQp.Qp.Basic
import HorizonQp.Linear.Text

namespace HorizonQp.Qp

open Linear (vectorText indexText)

variable {α : Type} [Stored α] [Zero α] [Binary.Encoded α]

def stageLine? (d : Dims) (i : Nat) : Option String := do
  let nx ← d.nx[i]?
  let nu ← d.nu[i]?
  let nb ← d.nb[i]?
  let nbu ← d.nbu[i]?
  let nbx ← d.nbx[i]?
  let ng ← d.ng[i]?
  let ns ← d.ns[i]?
  pure s!"stage {i}: nx = {nx}, nu = {nu}, nb = {nb} ({nbu} + {nbx}), ng = {ng}, ns = {ns}\n"

/-- The text `item`, if the stage has it. -/
def textIf (present : Bool) (item : Option String) : Option String := if present then item else some ""

def stageText? (q : Qp α) (i : Nat) : Option String := do
  let matrixItem (name : String) (block : MatBlock) : Option String := do
    pure (name ++ " = " ++ (← q.matrix? block i).text)
  let vectorItem (name : String) (block : VecBlock) : Option String := do
    pure (name ++ " = " ++ vectorText (← q.vector? block i) ++ "\n")
  let indexItem (name : String) (block : IdxBlock) : Option String := do
    pure (name ++ " = " ++ indexText (← q.indices? block i) ++ "\n")
  let hasNext := i < q.dims.N
  let ng ← q.dims.ng[i]?
  let ns ← q.dims.ns[i]?
  pure (String.join
    [← stageLine? q.dims i,
     ← textIf hasNext (matrixItem "BAbt" .BAbt), ← textIf hasNext (vectorItem "b" .b),
     ← matrixItem "RSQrq" .RSQrq, ← vectorItem "rqz" .rqz,
     ← textIf (0 < ng) (matrixItem "DCt" .DCt),
     ← indexItem "idxb" .idxb, ← vectorItem "d" .d, ← vectorItem "m" .m,
     ← textIf (0 < ns) (indexItem "idxs" .idxs), ← textIf (0 < ns) (vectorItem "Z" .Z)])

def text? (q : Qp α) : Option String := do
  let N := q.dims.N
  let memsize := q.layout.memsize
  pure (s!"OCP QP: N = {N}, memsize = {memsize}\n" ++
    String.join (← overStages q.stageText? 0 q.dims.stages))

end HorizonQp.Qp
