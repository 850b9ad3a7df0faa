/-
  HorizonQp.Residual.Norms — how far an iterate is from optimal.

  The residuals of an iterate are four vectors, of stationarity, of the equations, of the
  inequalities and of complementarity, and the gap `mu`. Their norms are the greatest
  absolute values, with `mu` as it is. The iterate has converged when every norm is
  within its tolerance; complementarity and the gap share one. A comparison with a value
  that is no number fails, so such a value keeps an iterate from converging.
-/

import HorizonQp.Linear.Vector
import HorizonQp.Decimal.Text

namespace HorizonQp

structure Residuals (α : Type) where
  stationarity : List α
  equations : List α
  inequalities : List α
  complementarity : List α
  mu : α
  deriving DecidableEq, Repr

/-- One number for each residual. -/
structure Norms (α : Type) where
  stationarity : α
  equations : α
  inequalities : α
  complementarity : α
  mu : α
  deriving DecidableEq, Repr

/-- The largest norms of a converged iterate. -/
structure Tolerances (α : Type) where
  stat : α
  eq : α
  ineq : α
  comp : α
  deriving DecidableEq, Repr

namespace Residuals

variable {α : Type}

/-- New residuals of the given lengths, all zero. -/
def zeros? [Zero α] [Stored α] (nv ne nc : Nat) : Option (Residuals α) := do
  pure ⟨← Linear.zeros? nv, ← Linear.zeros? ne, ← Linear.zeros? nc, ← Linear.zeros? nc, 0⟩

def norms [FloatingPoint α] (r : Residuals α) : Norms α :=
  { stationarity := Linear.normInf r.stationarity
    equations := Linear.normInf r.equations
    inequalities := Linear.normInf r.inequalities
    complementarity := Linear.normInf r.complementarity
    mu := r.mu }

end Residuals

namespace Norms

variable {α : Type}

def converged [FloatingPoint α] (n : Norms α) (tols : Tolerances α) : Bool :=
  FloatingPoint.le n.stationarity tols.stat && FloatingPoint.le n.equations tols.eq &&
    FloatingPoint.le n.inequalities tols.ineq && FloatingPoint.le n.complementarity tols.comp &&
    FloatingPoint.le n.mu tols.comp

/-- The norms in one line, each with three decimals. -/
def text [Binary.Encoded α] (n : Norms α) : String :=
  let item (name : String) (x : α) : String := name ++ " = " ++ Decimal.scientific 3 x
  ", ".intercalate
    [item "res_g" n.stationarity, item "res_b" n.equations, item "res_d" n.inequalities,
     item "res_m" n.complementarity, item "mu" n.mu]

end Norms

end HorizonQp
