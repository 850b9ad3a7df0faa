/-
  HorizonQp.Attempt — the outcome of a call.

  A call ends in one of three ways. It answers; it reports an error of the domain,
  which the caller can handle and which has a text; or the caller has broken the
  call's contract (a stage that has no such block, operands of the wrong length, a
  dimension record with missing entries) and there is no answer at all. The last two
  never mix: a reported error is a value `ε`, a breach carries nothing.
-/

namespace HorizonQp

/-- Why a call gave no answer. -/
inductive Failure (ε : Type) where
  | reported (error : ε)
  | breach
  deriving DecidableEq, Repr

/-- The outcome of a call whose reported errors are of type `ε`. -/
abbrev Attempt (ε α : Type) : Type := Except (Failure ε) α

namespace Attempt

variable {ε δ α : Type}

def fail (e : ε) : Attempt ε α := .error (.reported e)

def breach : Attempt ε α := .error .breach

/-- The answer of a partial reading, whose absence is a breach. -/
def require : Option α → Attempt ε α
  | some a => .ok a
  | none => .error .breach

/-- The answer of a partial reading, whose absence is the error `e`. -/
def orReport (e : ε) : Option α → Attempt ε α
  | some a => .ok a
  | none => .error (.reported e)

/-- A call that can only report an error. -/
def ofExcept : Except ε α → Attempt ε α
  | .ok a => .ok a
  | .error e => .error (.reported e)

/-- The same outcome with its error seen as an error of a wider type. -/
def widen (f : ε → δ) : Attempt ε α → Attempt δ α
  | .ok a => .ok a
  | .error (.reported e) => .error (.reported (f e))
  | .error .breach => .error .breach

theorem require_eq_ok {o : Option α} {a : α} : (require o : Attempt ε α) = .ok a ↔ o = some a := by
  cases o <;> simp [require]

end Attempt

end HorizonQp
