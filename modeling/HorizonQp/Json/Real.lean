/-
  HorizonQp.Json.Real — a number read in double precision.

  The decimal that is written, with all its digits, is rounded once, to the nearest
  double (`nearest`). A number that rounds past the greatest double is refused
  (`real?`); one that rounds to zero is a zero of its sign.
-/

import HorizonQp.Json.Basic
import HorizonQp.Binary.Numbers

namespace HorizonQp.Json

open Binary (Double Encoded)

namespace Number

def nearest (n : Number) : Double :=
  let fraction := n.fraction.getD []
  Encoded.ofDecimal n.negative (ofDigits (n.whole ++ fraction)) (n.exponent.getD 0 - fraction.length)

def real? (n : Number) : Option Double :=
  if FloatingPoint.isFinite n.nearest then some n.nearest else none

end Number

def Value.real? : Value → Option Double
  | .number n => n.real?
  | _ => none

end HorizonQp.Json
