/-
  HorizonQp.Field — the named data of a problem.

  A stage `i` of the problem has the cost
  `1/2 [u; x]' [R S; S' Q] [u; x] + r'u + q'x`, the dynamics `x⁺ = A x + B u + b` to the
  next stage, bounds `lb ≤ [u; x][idxb] ≤ ub`, which are `lbu`, `ubu` on the inputs and
  then `lbx`, `ubx` on the states, and constraints `lg ≤ D u + C x ≤ ug`. The rows
  `idxs` of the bounds and constraints are soft: their violations below and above have
  the quadratic costs `Zl`, `Zu`, the linear costs `zl`, `zu` and are at least `ls`, `us`.

  A field has one conventional name, and `ls` and `us` are also known as `lls` and `lus`.
  `ofName?_name`: reading a field's name gives the field.
-/

namespace HorizonQp

inductive Field where
  | A | B | Q | S | R | C | D
  | b | q | r
  | lb | ub | lbu | ubu | lbx | ubx | lg | ug
  | Zl | Zu | zl | zu | ls | us
  | idxb | idxs
  deriving DecidableEq, Repr

namespace Field

/-- The kind of data a field holds. -/
inductive Kind where
  | matrix
  | vector
  | index
  deriving DecidableEq, Repr

def all : List Field :=
  [.A, .B, .Q, .S, .R, .C, .D, .b, .q, .r, .lb, .ub, .lbu, .ubu, .lbx, .ubx, .lg, .ug,
   .Zl, .Zu, .zl, .zu, .ls, .us, .idxb, .idxs]

def name : Field → String
  | .A => "A" | .B => "B" | .Q => "Q" | .S => "S" | .R => "R" | .C => "C" | .D => "D"
  | .b => "b" | .q => "q" | .r => "r"
  | .lb => "lb" | .ub => "ub" | .lbu => "lbu" | .ubu => "ubu" | .lbx => "lbx" | .ubx => "ubx"
  | .lg => "lg" | .ug => "ug"
  | .Zl => "Zl" | .Zu => "Zu" | .zl => "zl" | .zu => "zu" | .ls => "ls" | .us => "us"
  | .idxb => "idxb" | .idxs => "idxs"

def kind : Field → Kind
  | .A | .B | .Q | .S | .R | .C | .D => .matrix
  | .idxb | .idxs => .index
  | _ => .vector

/-- Whether the field belongs to the step from a stage to the next. -/
def isDynamics : Field → Bool
  | .A | .B | .b => true
  | _ => false

/-- The other names by which a field is known. -/
def aliases : List (String × Field) := [("lls", .ls), ("lus", .us)]

def ofName? (s : String) : Option Field :=
  (aliases.lookup s).or (all.find? (·.name == s))

theorem ofName?_name (f : Field) : ofName? f.name = some f := by cases f <;> rfl

end Field

end HorizonQp
