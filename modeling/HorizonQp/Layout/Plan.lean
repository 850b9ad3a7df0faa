/-
  HorizonQp.Layout.Plan — planning a block for given dimensions.

  The counts of every stage are taken first, in the order of the stages. They are held in
  tables with a word for each stage: a horizon too long for one such table is a breach,
  whatever the counts are. A stage with a missing entry is a breach as well, and a count
  that does not fit a word is reported (`overflow`). Then every array is sized, and the
  regions are placed one behind the other. The products and sums that size a region are checked; what derives from
  quantities already checked (a header's offset within its region, the length of a table)
  is unchecked arithmetic. Any check that fails is the same report: a size that no block
  can have.
-/

import HorizonQp.Dims
import HorizonQp.Layout.Basic

namespace HorizonQp.Layout

open Word (add? mul? sum? wrap alignUp matrixBytes? vectorBytes? cacheLine)

/-- Reports a size that does not fit a word. -/
def overflow : ArenaError := .capacityExceeded Word.greatest Word.maxBytes

def checked (size : Option Nat) : Attempt ArenaError Nat := .orReport overflow size

/-! ## Counts -/

/-- What a stage needs room for: rows and columns of its matrices, lengths of its vectors. -/
structure Counts where
  nux : Nat
  nv : Nat
  nc : Nat
  ng : Nat
  ns : Nat
  deriving DecidableEq, Repr

/-- The counts of a stage, each checked; the augmented matrices have one row more than `nux`. -/
def counts (d : Dims) (i : Nat) : Attempt ArenaError Counts := do
  let nu ← .require d.nu[i]?
  let nx ← .require d.nx[i]?
  let nux ← checked (add? nu nx)
  let _ ← checked (add? nux 1)
  let ns ← .require d.ns[i]?
  let nv ← checked (do add? nux (← mul? 2 ns))
  let nb ← .require d.nb[i]?
  let ng ← .require d.ng[i]?
  let nc ← checked (do mul? 2 (← add? (← add? nb ng) ns))
  pure { nux, nv, nc, ng, ns }

/-! ## Placement -/

/-- Places regions of the given lengths one behind the other from `cursor`. -/
def place (cursor : Nat) : List (RegionKind × Nat) → Option (List Region × Nat)
  | [] => some ([], cursor)
  | (kind, len) :: rest => do
    let next ← add? cursor len
    let (regions, finish) ← place next rest
    pure (⟨kind, cursor, len⟩ :: regions, finish)

/-- The next cache line. -/
def align? (cursor : Nat) : Option Nat := do
  let _ ← add? cursor (cacheLine - 1)
  pure (alignUp cursor cacheLine)

/-- Index arrays of the given lengths back to back from `offset`. -/
def packIndices (offset : Nat) : List Nat → List IdxHeader
  | [] => []
  | len :: lens => ⟨offset, len⟩ :: packIndices (wrap (offset + wrap (len * Word.width))) lens

/-- Vectors of the given lengths, of numbers of `size` bytes, back to back from `offset`. -/
def packVectors (size offset : Nat) : List Nat → List VecHeader
  | [] => []
  | len :: lens =>
    let memsize := wrap (len * size)
    ⟨len, offset, memsize⟩ :: packVectors size (wrap (offset + memsize)) lens

/-- Matrices of the given shapes and bytes one behind the other from `offset`. -/
def stackMatrices (offset : Nat) : List ((Nat × Nat) × Nat) → List MatHeader
  | [] => []
  | ((rows, cols), memsize) :: rest =>
    ⟨rows, cols, offset, memsize⟩ :: stackMatrices (wrap (offset + memsize)) rest

/-- Vectors of the given lengths and bytes one behind the other from `offset`. -/
def stackVectors (offset : Nat) : List (Nat × Nat) → List VecHeader
  | [] => []
  | (len, memsize) :: rest => ⟨len, offset, memsize⟩ :: stackVectors (wrap (offset + memsize)) rest

/-- The matrices of every stage with the bytes of each. -/
def sizeMatrices? (size : Nat) (shapes : List (Nat × Nat)) : Option (List ((Nat × Nat) × Nat)) :=
  shapes.mapM fun (m, n) => do pure ((m, n), ← matrixBytes? size m n)

/-- The slack weights of every stage with the bytes of each. -/
def sizeWeights? (size : Nat) (stages : List Counts) : Option (List (Nat × Nat)) :=
  stages.mapM fun c => do pure (wrap (2 * c.ns), ← vectorBytes? size (← mul? 2 c.ns))

/-! ## The plan -/

/-- The layout for dimensions whose counts are `stages` and whose steps have `ne` equations. -/
def arrange? (d : Dims) (size : Nat) (stages : List Counts) (ne : List Nat) : Option Layout := do
  let st := d.stages
  let babt ← sizeMatrices? size (List.zipWith (fun c e => (c.nux + 1, e)) stages ne)
  let rsqrq ← sizeMatrices? size (stages.map fun c => (c.nux + 1, c.nux))
  let dct ← sizeMatrices? size (stages.map fun c => (c.nux, c.ng))
  let weights ← sizeWeights? size stages
  let (heads, cursor) ← place 0
    [(.idxHeaders, ← mul? (wrap (2 * st)) IdxHeader.width),
     (.matHeaders, ← mul? (wrap (d.N + 2 * st)) MatHeader.width),
     (.vecHeaders, ← mul? (wrap (d.N + 4 * st)) VecHeader.width),
     (.idxb, ← mul? (← sum? d.nb) Word.width),
     (.idxs, ← mul? (← sum? d.ns) Word.width)]
  let (floats, used) ← place (← align? cursor)
    [(.BAbt, ← sum? (babt.map (·.2))),
     (.RSQrq, ← sum? (rsqrq.map (·.2))),
     (.DCt, ← sum? (dct.map (·.2))),
     (.Z, ← sum? (weights.map (·.2))),
     (.rqz, ← vectorBytes? size (← sum? (stages.map (·.nv)))),
     (.b, ← vectorBytes? size (← sum? ne)),
     (.d, ← vectorBytes? size (← sum? (stages.map (·.nc)))),
     (.m, ← vectorBytes? size (← sum? (stages.map (·.nc))))]
  let memsize ← add? used cacheLine
  let placed : Layout := ⟨heads ++ floats, [], [], [], used, memsize⟩
  let start (kind : RegionKind) : Nat := (placed.region kind).offset
  pure { placed with
    idxHeaders := packIndices (start .idxb) d.nb ++ packIndices (start .idxs) d.ns
    matHeaders :=
      stackMatrices (start .BAbt) babt ++ stackMatrices (start .RSQrq) rsqrq ++ stackMatrices (start .DCt) dct
    vecHeaders :=
      packVectors size (start .b) ne ++ packVectors size (start .rqz) (stages.map (·.nv)) ++
        packVectors size (start .d) (stages.map (·.nc)) ++ packVectors size (start .m) (stages.map (·.nc)) ++
        stackVectors (start .Z) weights }

/-- The layout of a problem with dimensions `d` and numbers of `size` bytes. -/
def plan (size : Nat) (d : Dims) : Attempt ArenaError Layout :=
  if Word.allocates Word.width d.stages then do
    let stages ← overStages (counts d) 0 d.stages
    let ne ← .require (overStages d.ne? 0 d.N)
    .orReport overflow (arrange? d size stages ne)
  else .breach

/-- The bytes that a block for dimensions `d` must have; the greatest word when none can do. -/
def required? (size : Nat) (d : Dims) : Option Nat :=
  match plan size d with
  | .ok layout => some layout.memsize
  | .error (.reported _) => some Word.greatest
  | .error .breach => none

end HorizonQp.Layout
