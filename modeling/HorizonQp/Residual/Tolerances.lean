/-
  HorizonQp.Residual.Tolerances — choosing tolerances.

  A tolerance is good when it is finite and not below zero; a negative zero is good. What
  is not given is `Tolerances.default`, the number nearest to `10⁻⁸`. `build` refuses
  what is given and bad, `validate` what is bad; both name the first bad field.
-/

import HorizonQp.Residual.Norms

namespace HorizonQp

/-- The field of the tolerances whose value is bad. -/
structure BadTolerance where
  field : String
  deriving DecidableEq, Repr

def BadTolerance.message (e : BadTolerance) : String := "Bad value for field " ++ e.field

/-- Tolerances some of which are given. -/
structure GivenTolerances (α : Type) where
  stat : Option α
  eq : Option α
  ineq : Option α
  comp : Option α
  deriving DecidableEq, Repr

/-- The decimal `10⁻⁸`, read as a double and then as the number nearest to that. -/
def defaultTolerance {α : Type} [Binary.Encoded α] : α :=
  Binary.Encoded.convert (Binary.Encoded.ofDecimal false 1 (-8) : Binary.Double)

def Tolerances.default {α : Type} [Binary.Encoded α] : Tolerances α :=
  ⟨defaultTolerance, defaultTolerance, defaultTolerance, defaultTolerance⟩

section Check

variable {α : Type} [FloatingPoint α]

def isGoodTolerance (x : α) : Bool := FloatingPoint.isFinite x && !FloatingPoint.lt x 0

/-- Refuses the first of the named values that is bad. -/
def checkTolerances (named : List (String × α)) : Except BadTolerance Unit :=
  match named.find? fun (_, x) => !isGoodTolerance x with
  | some (field, _) => .error ⟨field⟩
  | none => .ok ()

namespace Tolerances

def named (t : Tolerances α) : List (String × α) :=
  [("tol_stat", t.stat), ("tol_eq", t.eq), ("tol_ineq", t.ineq), ("tol_comp", t.comp)]

def validate (t : Tolerances α) : Except BadTolerance Unit := checkTolerances t.named

end Tolerances

namespace GivenTolerances

def named (t : GivenTolerances α) : List (String × α) :=
  [("tol_stat", t.stat), ("tol_eq", t.eq), ("tol_ineq", t.ineq), ("tol_comp", t.comp)].filterMap
    fun (field, x) => x.map (field, ·)

/-- The given values, and those of `base` for the rest. -/
def completed (t : GivenTolerances α) (base : Tolerances α) : Tolerances α :=
  ⟨t.stat.getD base.stat, t.eq.getD base.eq, t.ineq.getD base.ineq, t.comp.getD base.comp⟩

def build [Binary.Encoded α] (t : GivenTolerances α) : Except BadTolerance (Tolerances α) := do
  checkTolerances t.named
  pure (t.completed .default)

end GivenTolerances

end Check

end HorizonQp
