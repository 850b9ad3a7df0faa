/-
  HorizonQp.Binary.Format — binary interchange formats.

  A format has a sign bit, `exponent` exponent bits and `fraction` fraction bits, in
  that order from the top of the pattern. A pattern without its sign bit is a
  magnitude; magnitudes are ordered as the values they stand for. The magnitude of
  `infinity` has all exponent bits set and no fraction bit; the magnitudes above it
  stand for no number.

  `datum` reads a pattern as an exact value `± m · 2^q`. `nearest` gives the pattern of
  the representable value nearest to a fraction `num / den`, where an exact tie goes to
  the even magnitude and a value past the greatest finite one goes to infinity. Every
  number that enters from outside, decimal or integer or of another format, is rounded
  once, by `nearest`.
-/

namespace HorizonQp.Binary

structure Format where
  exponent : Nat
  fraction : Nat
  deriving DecidableEq, Repr

/-- Eight exponent bits and 23 fraction bits. -/
def single : Format := ⟨8, 23⟩

/-- Eleven exponent bits and 52 fraction bits. -/
def double : Format := ⟨11, 52⟩

/-- What a bit pattern stands for. -/
inductive Datum where
  | nan
  | infinite (negative : Bool)
  /-- The value `± significand · 2 ^ scale`. -/
  | finite (negative : Bool) (significand : Nat) (scale : Int)
  deriving DecidableEq, Repr

namespace Format

variable (F : Format)

def signBit : Nat := 1 <<< (F.exponent + F.fraction)

/-- The weight of the leading bit of a significand, which a pattern leaves out. -/
def leadingBit : Nat := 1 <<< F.fraction

def infinity : Nat := ((1 <<< F.exponent) - 1) * F.leadingBit

/-- The pattern of the value that is no number: quiet, positive, with no further bit. -/
def quietNaN : Nat := F.infinity + F.leadingBit / 2

/-- The scale of the smallest positive value. -/
def leastScale : Int := 2 - ((1 <<< (F.exponent - 1) : Nat) : Int) - F.fraction

def magnitude (bits : Nat) : Nat := bits % F.signBit

def isNegative (bits : Nat) : Bool := decide (F.signBit ≤ bits)

def isNaN (bits : Nat) : Bool := decide (F.infinity < F.magnitude bits)

def isFinite (bits : Nat) : Bool := decide (F.magnitude bits < F.infinity)

def isZero (bits : Nat) : Bool := F.magnitude bits == 0

def withSign (negative : Bool) (magnitude : Nat) : Nat :=
  if negative then F.signBit + magnitude else magnitude

/-- Orders the patterns of numbers by value; the two zeros have one place. -/
def place (bits : Nat) : Int :=
  if F.isNegative bits then -(F.magnitude bits : Int) else F.magnitude bits

def lt (a b : Nat) : Bool := !F.isNaN a && !F.isNaN b && decide (F.place a < F.place b)

def le (a b : Nat) : Bool := !F.isNaN a && !F.isNaN b && decide (F.place a ≤ F.place b)

def datum (bits : Nat) : Datum :=
  let magnitude := F.magnitude bits
  if F.infinity < magnitude then .nan
  else if magnitude = F.infinity then .infinite (F.isNegative bits)
  else
    let biased := magnitude / F.leadingBit
    if biased = 0 then .finite (F.isNegative bits) magnitude F.leastScale
    else .finite (F.isNegative bits) (magnitude % F.leadingBit + F.leadingBit) (F.leastScale + biased - 1)

end Format

/-! ## Rounding -/

/-- The integer nearest to `num / den`, a tie going to the even one. -/
def roundToEven (num den : Nat) : Nat :=
  let low := num / den
  let rest := 2 * (num % den)
  if den < rest ∨ (rest = den ∧ low % 2 = 1) then low + 1 else low

/-- The fraction `num / den` in units of `base ^ scale`. -/
def inUnits (base num den : Nat) (scale : Int) : Nat × Nat :=
  (num * Nat.pow base (-scale).toNat, den * Nat.pow base scale.toNat)

/-- The number `n · base ^ scale` as a fraction. -/
def scaled (base n : Nat) (scale : Int) : Nat × Nat := inUnits base n 1 (-scale)

/-- The exponent `e` with `2 ^ e ≤ num / den < 2 ^ (e + 1)`, for a positive fraction. -/
def leadingExponent (num den : Nat) : Int :=
  let guess : Int := num.log2 - den.log2
  let (n, d) := inUnits 2 num den guess
  if n < d then guess - 1 else guess

namespace Format

variable (F : Format)

/-- The magnitude nearest to `num / den`. Counting units of the last place up from the
    least scale gives the magnitude itself, a carry into the exponent included. -/
def nearestMagnitude (num den : Nat) : Nat :=
  if num = 0 then 0
  else
    let scale := max (leadingExponent num den - F.fraction) F.leastScale
    let (n, d) := inUnits 2 num den scale
    min ((scale - F.leastScale).toNat * F.leadingBit + roundToEven n d) F.infinity

/-- The pattern nearest to `± num / den`, for the fraction `(num, den)`. -/
def nearest (negative : Bool) (fraction : Nat × Nat) : Nat :=
  F.withSign negative (F.nearestMagnitude fraction.1 fraction.2)

/-- The pattern nearest to a datum of any format. -/
def ofDatum : Datum → Nat
  | .nan => F.quietNaN
  | .infinite negative => F.withSign negative F.infinity
  | .finite negative significand scale => F.nearest negative (scaled 2 significand scale)

/-- A scale at which `digits` rounds as it does at `scale`, and whose power of ten is not
    out of all proportion to the format: `far` powers of ten up every number is infinite,
    and as many below one it is zero. -/
def boundedScale (digits : Nat) (scale : Int) : Int :=
  let far : Int := (1 <<< F.exponent : Nat)
  max (-(digits.log2 + 1 + far)) (min far scale)

/-- The pattern nearest to the decimal `± digits · 10 ^ scale`. -/
def ofDecimal (negative : Bool) (digits : Nat) (scale : Int) : Nat :=
  F.nearest negative (scaled 10 digits (F.boundedScale digits scale))

end Format

end HorizonQp.Binary
