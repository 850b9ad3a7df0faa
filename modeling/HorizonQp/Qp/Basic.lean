/-
  HorizonQp.Qp.Basic — a multi-stage problem in a block of memory.

  `bind` lays a problem out in a block: it writes the headers, clears the numbers to zero
  and leaves every other byte as it is, the index arrays included. `release` gives the
  block back. Between the two the block alone describes the problem: each array of each
  stage is found through its header in the block.

  The views (`matrix?`, `vector?`, `indices?`) and the writes over them have no answer
  for a stage that has no such array.

  Upper bounds are held negated, so that every row of `d` is a lower bound.
-/

import HorizonQp.Block
import HorizonQp.Layout.Plan
import HorizonQp.Linear.Matrix

namespace HorizonQp

open Linear (Matrix)

/-- A problem with numbers of type `α`, bound to a block. -/
structure Qp (α : Type) where
  dims : Dims
  layout : Layout
  block : Block
  deriving DecidableEq, Repr

namespace Layout

/-- Writes one table of headers, given as words; it must fill its region. -/
def writeTable? (l : Layout) (kind : RegionKind) (words : List Nat) (b : Block) : Option Block :=
  let r := l.region kind
  if words.length * Word.width = r.len then b.writeWords? r.offset words else none

def writeHeaders? (l : Layout) (b : Block) : Option Block := do
  let b ← l.writeTable? .idxHeaders (l.idxHeaders.flatMap IdxHeader.words) b
  let b ← l.writeTable? .matHeaders (l.matHeaders.flatMap MatHeader.words) b
  l.writeTable? .vecHeaders (l.vecHeaders.flatMap VecHeader.words) b

end Layout

namespace Qp

variable {α : Type} [Stored α]

/-! ## Binding and releasing -/

/-- The numbers of the problem, cleared. -/
def clearNumbers? (l : Layout) (b : Block) : Option Block := b.clear? l.floatSpan.1 l.floatSpan.2

/-- Lays out a problem of dimensions `d` in `block`. -/
def bind (d : Dims) (block : Block) : Attempt ArenaError (Qp α) := do
  let layout ← Layout.plan (Stored.width α) d
  if block.size < layout.memsize then
    .fail (.capacityExceeded layout.memsize block.size)
  else if block.size < block.base + layout.used then
    .fail (.outOfBounds (block.base + layout.used) block.size)
  else
    let block ← .require (layout.writeHeaders? block)
    let block ← .require (clearNumbers? layout block)
    pure ⟨d, layout, block⟩

/-- A problem in a new block, every byte of which was zero. -/
def new (d : Dims) : Attempt QpError (Qp α) := do
  let layout ← (Layout.plan (Stored.width α) d).widen .arena
  if layout.memsize ≤ Word.maxBytes then (bind d (.filled layout.memsize 0)).widen .arena
  else .breach

def release (q : Qp α) : Block := q.block

/-- The bytes of the block that the layout covers. -/
def image (q : Qp α) : Option (List UInt8) := q.block.read? 0 q.layout.used

/-! ## Headers -/

/-- The whole table of headers in a region, `width` bytes each. -/
def table? {H : Type} (q : Qp α) (kind : RegionKind) (width : Nat) (ofWords? : List Nat → Option H) :
    Option (List H) :=
  let r := q.layout.region kind
  (List.range (r.len / width)).mapM fun k => do
    ofWords? (← q.block.readWords? (r.offset + k * width) (width / Word.width))

def idxHeaders? (q : Qp α) : Option (List IdxHeader) := q.table? .idxHeaders IdxHeader.width IdxHeader.ofWords?

def matHeaders? (q : Qp α) : Option (List MatHeader) := q.table? .matHeaders MatHeader.width MatHeader.ofWords?

def vecHeaders? (q : Qp α) : Option (List VecHeader) := q.table? .vecHeaders VecHeader.width VecHeader.ofWords?

/-- Header `k` of the table in a region. -/
def header? {H : Type} (q : Qp α) (kind : RegionKind) (width : Nat) (ofWords? : List Nat → Option H) (k : Nat) :
    Option H := do
  let r := q.layout.region kind
  if (k + 1) * width ≤ r.len then
    ofWords? (← q.block.readWords? (r.offset + k * width) (width / Word.width))
  else none

def matHeader? (q : Qp α) (block : MatBlock) (stage : Nat) : Option MatHeader := do
  q.header? .matHeaders MatHeader.width MatHeader.ofWords? (← block.headerIndex? q.dims.N stage)

def vecHeader? (q : Qp α) (block : VecBlock) (stage : Nat) : Option VecHeader := do
  q.header? .vecHeaders VecHeader.width VecHeader.ofWords? (← block.headerIndex? q.dims.N stage)

def idxHeader? (q : Qp α) (block : IdxBlock) (stage : Nat) : Option IdxHeader := do
  q.header? .idxHeaders IdxHeader.width IdxHeader.ofWords? (← block.headerIndex? q.dims.N stage)

/-! ## Views -/

def matrix? (q : Qp α) (block : MatBlock) (stage : Nat) : Option (Matrix α) := do
  let h ← q.matHeader? block stage
  pure ⟨h.rows, h.cols, ← q.block.readNumbers? h.offset (h.rows * h.cols)⟩

def vector? (q : Qp α) (block : VecBlock) (stage : Nat) : Option (List α) := do
  let h ← q.vecHeader? block stage
  q.block.readNumbers? h.offset h.len

def indices? (q : Qp α) (block : IdxBlock) (stage : Nat) : Option (List Nat) := do
  let h ← q.idxHeader? block stage
  q.block.readWords? h.offset h.len

/-! ## Writes over a view -/

def writeMatrix? (q : Qp α) (block : MatBlock) (stage : Nat) (data : List α) : Option (Qp α) := do
  let h ← q.matHeader? block stage
  if data.length = h.rows * h.cols then pure { q with block := ← q.block.writeNumbers? h.offset data } else none

def writeVector? (q : Qp α) (block : VecBlock) (stage : Nat) (data : List α) : Option (Qp α) := do
  let h ← q.vecHeader? block stage
  if data.length = h.len then pure { q with block := ← q.block.writeNumbers? h.offset data } else none

def writeIndices? (q : Qp α) (block : IdxBlock) (stage : Nat) (data : List Nat) : Option (Qp α) := do
  let h ← q.idxHeader? block stage
  if data.length = h.len then pure { q with block := ← q.block.writeWords? h.offset data } else none

end Qp

end HorizonQp
