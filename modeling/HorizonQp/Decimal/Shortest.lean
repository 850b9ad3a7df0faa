/-
  HorizonQp.Decimal.Shortest — the fewest decimal digits that read back.

  A finite positive value of a binary format owns an interval: the reals that round to
  it. It reaches half a unit up, and half a unit down, or a quarter at the lower end of
  a binade; both ends belong to it when the significand is even (`Owned`).

  For each number of digits the value has two neighbours on the decimal grid of that
  many digits, one at or below it and one above. The first grid with a neighbour inside
  the interval gives the digits; of two such neighbours the nearer is taken, the upper
  one on a tie (`pick`). A point of a grid lies inside the interval only if one of the
  two neighbours does, so fewer digits never read back. `limit` digits always do.
-/

import HorizonQp.Binary.Format

namespace HorizonQp

/-- The decimal `coefficient · 10 ^ scale`. -/
structure Decimal where
  coefficient : Nat
  scale : Int
  deriving DecidableEq, Repr

namespace Decimal

open Binary (Format inUnits scaled)

/-- The number of decimal digits of `n`. -/
def digitCount (n : Nat) : Nat := (Nat.toDigits 10 n).length

/-- The exponent `e` with `10 ^ (e - 1) ≤ num / den < 10 ^ e`, for a positive fraction. -/
def pointPosition (num den : Nat) : Int :=
  let guess : Int := digitCount num - digitCount den
  let (n, d) := inUnits 10 num den guess
  if d ≤ n then guess + 1 else guess

/-- The interval of a value, in quarters of a unit: `low / den`, `value / den` and
    `high / den`, with or without its ends. -/
structure Owned where
  low : Nat
  value : Nat
  high : Nat
  den : Nat
  closed : Bool

/-- The interval of `significand · 2 ^ scale` in the format `F`. -/
def owned (F : Format) (significand : Nat) (scale : Int) : Owned :=
  let (up, den) := scaled 2 1 (scale - 2)
  let below := if significand = F.leadingBit ∧ F.leastScale < scale then 1 else 2
  { low := (4 * significand - below) * up
    value := 4 * significand * up
    high := (4 * significand + 2) * up
    den := den
    closed := significand % 2 == 0 }

namespace Owned

/-- Whether `coefficient · 10 ^ scale` lies in the interval. -/
def contains (o : Owned) (coefficient : Nat) (scale : Int) : Bool :=
  let (num, den) := scaled 10 coefficient scale
  let point := num * o.den
  if o.closed then o.low * den ≤ point && point ≤ o.high * den
  else o.low * den < point && point < o.high * den

/-- The neighbour of the value on the grid `10 ^ scale` that stands for it, if one does. -/
def pick (o : Owned) (scale : Int) : Option Decimal :=
  let (n, d) := inUnits 10 o.value o.den scale
  let below := n / d
  let above := below + 1
  match o.contains below scale, o.contains above scale with
  | true, true => some ⟨if 2 * (n % d) < d then below else above, scale⟩
  | true, false => some ⟨below, scale⟩
  | false, true => some ⟨above, scale⟩
  | false, false => none

/-- The digits of the coarsest grid with a hit, from `scale` down through `fuel` grids. -/
def search (o : Owned) (scale : Int) : Nat → Decimal
  | 0 => ⟨o.value / o.den, 0⟩
  | fuel + 1 => (o.pick scale).getD (o.search (scale - 1) fuel)

end Owned

/-- No binary format up to 64 bits needs more digits than these. -/
def limit : Nat := 17

/-- The shortest decimal that reads back as `significand · 2 ^ scale`. -/
def shortest (F : Format) (significand : Nat) (scale : Int) : Decimal :=
  let o := owned F significand scale
  o.search (pointPosition o.value o.den - 1) limit

end Decimal

end HorizonQp
