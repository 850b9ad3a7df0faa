/-
  HorizonQp.Qp.Resize — changing the bounds of a bound problem.

  `resize` gives every stage new numbers of bounds on inputs and on states. The arrays
  that depend on them, `idxb`, `d` and `m`, are packed anew over the same bytes from the
  start of their regions; no array is moved or cleared, so the bounds have to be set
  again. Everything else stays.

  It is refused when the split does not fit a stage, when a slack of `idxs` would soften
  a row that is no more, or when the index arrays or the rows of `d` would not fit the
  regions that were laid out at binding.
-/

import HorizonQp.Qp.Basic

namespace HorizonQp

open Word (wrap)

/-- The list with the entries from `first` on replaced by `new`. -/
def replaceFrom {α : Type} (xs : List α) (first : Nat) (new : List α) : List α :=
  xs.take first ++ new ++ xs.drop (first + new.length)

namespace Layout

/-- The layout after a resize: `idxb` has `nb` and `d` and `m` have `nc` entries a stage. -/
def repack (l : Layout) (size N : Nat) (nb nc : List Nat) : Layout :=
  let rows (block : VecBlock) (headers : List VecHeader) : List VecHeader :=
    replaceFrom headers (block.headers N).1 (packVectors size (l.region block.region).offset nc)
  { l with
    idxHeaders := replaceFrom l.idxHeaders 0 (packIndices (l.region .idxb).offset nb)
    vecHeaders := rows .m (rows .d l.vecHeaders) }

/-- Whether `total lens` entries of `size` bytes fit the region. -/
def checkCapacity (l : Layout) (kind : RegionKind) (size : Nat) (lens : List Nat) : Except QpError Unit :=
  let required := wrap (wrap (total lens) * size)
  let available := (l.region kind).len
  if available < required then .error (.arena (.capacityExceeded required available)) else .ok ()

end Layout

namespace Qp

variable {α : Type} [Stored α]

/-- Every slack of stage `i` softens a row that there is with `nb` bounds at that stage. -/
def checkSoftRows (q : Qp α) (nb : List Nat) (i : Nat) : Attempt QpError Unit := do
  let idxs ← .require (q.indices? .idxs i)
  let b ← .require nb[i]?
  let g ← .require q.dims.ng[i]?
  .ofExcept (checkIndices idxs (wrap (b + g)))

/-- The inequality rows of stage `i` with `nb` bounds at that stage. -/
def rowsWith? (d : Dims) (nb : List Nat) (i : Nat) : Option Nat := do
  let b ← nb[i]?
  let g ← d.ng[i]?
  let s ← d.ns[i]?
  pure (wrap (2 * wrap (b + g + s)))

def resize (q : Qp α) (nbu nbx : List Nat) : Attempt QpError (Qp α) := do
  let d := q.dims
  .ofExcept (checkLength d.stages nbu.length)
  .ofExcept (checkLength d.stages nbx.length)
  if let some stage := splitFault? d.nx d.nu nbu nbx then .fail (.badBoundSplit stage)
  if nbu.length < d.nx.length then .breach
  let nb := Dims.joinBounds nbu nbx
  let nc ← .require (overStages (rowsWith? d nb) 0 d.stages)
  let _ ← overStages (q.checkSoftRows nb) 0 d.stages
  .ofExcept (q.layout.checkCapacity .idxb Word.width nb)
  .ofExcept (q.layout.checkCapacity .d (Stored.width α) nc)
  let layout := q.layout.repack (Stored.width α) d.N nb nc
  let block ← .require (layout.writeHeaders? q.block)
  pure ⟨{ d with nb, nbu, nbx }, layout, block⟩

end Qp

end HorizonQp
