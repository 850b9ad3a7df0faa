/-
  HorizonQp.Dims — the dimensions of a problem.

  A horizon of `N` steps has the stages `0` to `N`. At stage `i` there are `nx[i]`
  states, `nu[i]` inputs, `nb[i]` simple bounds, of which `nbu[i]` are on inputs and
  `nbx[i]` on states, `ng[i]` general constraints and `ns[i]` slacks.

  A record built by `ofStages` is `Consistent` as far as words count its bounds: every
  array has one entry per stage, the bounds are those on inputs and those on states, and
  neither are more than there are inputs or states. A record read from text need not be.
  What asks for an entry that is missing has no answer, and a missing entry ends a walk
  over the stages (`overStages`) at once, however long the horizon is said to be. What is
  added up from the entries is a word.
-/

import HorizonQp.Attempt
import HorizonQp.Error
import HorizonQp.Word

namespace HorizonQp

open Word (wrap)

structure Dims where
  N : Nat
  nx : List Nat
  nu : List Nat
  nb : List Nat
  nbu : List Nat
  nbx : List Nat
  ng : List Nat
  ns : List Nat
  deriving DecidableEq, Repr

/-- The results of `f` at `count` stages from `first` on, as far as none fails. -/
def overStages {m : Type → Type} [Monad m] {α : Type} (f : Nat → m α) (first : Nat) : Nat → m (List α)
  | 0 => pure []
  | count + 1 => do
    let a ← f first
    let as ← overStages f (first + 1) count
    pure (a :: as)

/-- The sum of counts. -/
def total (counts : List Nat) : Nat := counts.foldr (· + ·) 0

/-- The first stage with more bounds on inputs or states than inputs or states. -/
def splitFault? (nx nu nbu nbx : List Nat) : Option Nat :=
  ((nu.zip nbu).zip (nx.zip nbx)).findIdx? fun ((u, bu), (x, bx)) => u < bu || x < bx

namespace Dims

def Consistent (d : Dims) : Prop :=
  (d.nx.length = d.N + 1 ∧ d.nu.length = d.N + 1 ∧ d.nb.length = d.N + 1 ∧ d.nbu.length = d.N + 1 ∧
    d.nbx.length = d.N + 1 ∧ d.ng.length = d.N + 1 ∧ d.ns.length = d.N + 1) ∧
  d.nb = List.zipWith (· + ·) d.nbu d.nbx ∧ splitFault? d.nx d.nu d.nbu d.nbx = none

instance (d : Dims) : Decidable d.Consistent := by unfold Consistent; infer_instance

/-! ## Building -/

/-- The bounds of every stage, those on inputs and those on states together. -/
def joinBounds (nbu nbx : List Nat) : List Nat := List.zipWith (fun u x => wrap (u + x)) nbu nbx

/-- The dimensions with the given arrays, one entry per stage. -/
def ofStages (nx nu nbu nbx ng ns : List Nat) : Except QpError Dims := do
  if nx.isEmpty then throw (.incompatibleDimension 1 0)
  for other in [nu, nbu, nbx, ng, ns] do
    checkLength nx.length other.length
  if let some stage := splitFault? nx nu nbu nbx then throw (.badBoundSplit stage)
  pure { N := nx.length - 1, nx, nu, nb := joinBounds nbu nbx, nbu, nbx, ng, ns }

/-- The same dimensions at every stage, with no inputs at the last. -/
def uniform (N nx nu nbu nbx ng ns : Nat) : Attempt QpError Dims :=
  if Word.allocates Word.width (N + 1) then
    let every (n : Nat) := List.replicate (N + 1) n
    let butLast (n : Nat) := List.replicate N n ++ [0]
    .ofExcept (ofStages (every nx) (butLast nu) (butLast nbu) (every nbx) (every ng) (every ns))
  else .breach

/-! ## Counts at a stage -/

variable (d : Dims)

/-- The stages of the horizon, as a walk over them counts them. -/
def stages : Nat := d.N + 1

/-- Inputs and states. -/
def nux? (i : Nat) : Option Nat := do
  let u ← d.nu[i]?
  let x ← d.nx[i]?
  pure (wrap (u + x))

/-- Primal variables, slacks included. -/
def nv? (i : Nat) : Option Nat := do
  let ux ← d.nux? i
  let s ← d.ns[i]?
  pure (wrap (ux + 2 * s))

/-- Equality constraints of the step from stage `i`. -/
def ne? (i : Nat) : Option Nat := d.nx[i + 1]?

/-- Inequality rows: both sides of each bound, general constraint and slack. -/
def nc? (i : Nat) : Option Nat := do
  let b ← d.nb[i]?
  let g ← d.ng[i]?
  let s ← d.ns[i]?
  pure (wrap (2 * (b + g + s)))

/-! ## Totals -/

def nvt? : Option Nat := (overStages d.nv? 0 d.stages).map fun counts => wrap (total counts)

def net? : Option Nat := (overStages d.ne? 0 d.N).map fun counts => wrap (total counts)

def nct? : Option Nat := (overStages d.nc? 0 d.stages).map fun counts => wrap (total counts)

def nbt : Nat := wrap (total d.nb)

def nst : Nat := wrap (total d.ns)

/-! ## Stages -/

def checkStage (stage : Nat) : Except QpError Unit :=
  if d.N < stage then .error (.stageOutOfRange stage d.N) else .ok ()

/-- The stage has a step to a next one. -/
def checkTransition (stage : Nat) : Except QpError Unit :=
  if d.N ≤ stage then .error (.stageOutOfRange stage (d.N - 1)) else .ok ()

end Dims

end HorizonQp
