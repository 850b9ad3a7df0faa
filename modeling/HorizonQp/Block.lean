/-
  HorizonQp.Block — a block of memory.

  A block is a run of bytes with an aligned base somewhere in its first cache line.
  Offsets count from the base. A read or a write has an answer only when it stays inside
  the block. Words and numbers lie as `Word` and `Stored` say, one behind the other.
-/

import HorizonQp.Word
import HorizonQp.Scalar

namespace HorizonQp

structure Block where
  bytes : Array UInt8
  /-- The place of the first byte whose address is a multiple of a cache line. -/
  base : Nat
  deriving DecidableEq, Repr

namespace Block

def size (b : Block) : Nat := b.bytes.size

/-- A block of `size` bytes, all `fill`, that begins at its base. -/
def filled (size : Nat) (fill : UInt8) : Block := ⟨Array.replicate size fill, 0⟩

/-- The bytes `bs` in place of those from `start` on. -/
def splice (bytes : Array UInt8) (start : Nat) (bs : List UInt8) : Array UInt8 :=
  bytes.extract 0 start ++ bs.toArray ++ bytes.extract (start + bs.length) bytes.size

def read? (b : Block) (offset len : Nat) : Option (List UInt8) :=
  let start := b.base + offset
  if start + len ≤ b.size then some (b.bytes.extract start (start + len)).toList else none

def write? (b : Block) (offset : Nat) (bs : List UInt8) : Option Block :=
  let start := b.base + offset
  if start + bs.length ≤ b.size then some { b with bytes := splice b.bytes start bs } else none

/-- Zero bytes from offset `first` up to `finish`. -/
def clear? (b : Block) (first finish : Nat) : Option Block :=
  b.write? first (List.replicate (finish - first) 0)

/-! ## Words and numbers -/

/-- The first `count` pieces of `width` bytes. -/
def pieces (width : Nat) : Nat → List UInt8 → List (List UInt8)
  | 0, _ => []
  | count + 1, bs => bs.take width :: pieces width count (bs.drop width)

def readWords? (b : Block) (offset count : Nat) : Option (List Nat) :=
  (b.read? offset (count * Word.width)).map fun bs => (pieces Word.width count bs).map Word.decode

def writeWords? (b : Block) (offset : Nat) (ns : List Nat) : Option Block :=
  b.write? offset (ns.flatMap Word.encode)

section Numbers

variable {α : Type} [Stored α]

def readNumbers? (b : Block) (offset count : Nat) : Option (List α) :=
  (b.read? offset (count * Stored.width α)).map fun bs => (pieces (Stored.width α) count bs).map Stored.decode

def writeNumbers? (b : Block) (offset : Nat) (xs : List α) : Option Block :=
  b.write? offset (xs.flatMap Stored.encode)

end Numbers

end Block

end HorizonQp
