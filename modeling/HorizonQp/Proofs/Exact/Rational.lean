/-
  HorizonQp.Proofs.Exact.Rational — rational numbers in memory.

  A rational number is stored as the nearest double and read back as the value that the
  pattern of a double stands for. So a problem in a block of doubles is also a problem with
  exact numbers, over which its residuals can be computed.
-/

import Mathlib.Algebra.Field.Rat
import HorizonQp.Binary.Numbers
import HorizonQp.Proofs.Memory.Bytes

namespace HorizonQp

/-- The rational number that a pattern stands for, zero if it stands for none. -/
def exactValue : Binary.Datum → ℚ
  | .finite negative significand scale => (if negative then -1 else 1) * significand * 2 ^ scale
  | _ => 0

/-- Rational numbers lie in memory as the nearest doubles. -/
instance rationalStored : Stored ℚ where
  width := 8
  encode x := Stored.encode (Binary.Encoded.ofBits (Binary.double.nearest (x < 0) (x.num.natAbs, x.den)) : Binary.Double)
  decode bs := exactValue (Binary.Encoded.datum (Stored.decode bs : Binary.Double))

instance : FixedWidth ℚ where
  width_dvd := Nat.dvd_refl 8
  length_encode _ := LawfulStored.length_encode (α := Binary.Double) _

end HorizonQp
