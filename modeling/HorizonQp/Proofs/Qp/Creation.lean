/-
  HorizonQp.Proofs.Qp.Creation — how the creation of a problem ends.

  Creating a problem plans its block, asks for as many zero bytes and binds to them. Planning
  measures sizes against a word, but an allocation has at most `Word.maxBytes`, which is half of
  that. So there are three cases (`Qp.new_ends`). A size of at most `maxBytes` gives the problem,
  every number zero. One that fits no word is reported by the plan, with `maxBytes` as the
  capacity. One in between is planned and then breaks at the allocation. Such sizes need no long
  records: one stage with `2 ^ 30` states has one (`new_breaks_wide_stage`).
-/

import HorizonQp.Proofs.Layout.Exact
import HorizonQp.Proofs.Qp.Binding

namespace HorizonQp

open Word (limit)

namespace Layout

variable {size : Nat} {d : Dims}

theorem plan_overflows (s : d.Spanned) (hst : Word.allocates Word.width d.stages = true)
    (h : limit ≤ (planned size d).memsize) : plan size d = .error (.reported overflow) := by
  have hno : ∀ l, plan size d ≠ .ok l := by
    intro l hl
    rcases plan_eq_ok s hl with ⟨rfl, hlt, -⟩
    exact absurd hlt (Nat.not_lt.mpr h)
  rcases (plan_fails s hst).exists_error hno with ⟨_, hp, rfl⟩
  exact hp

end Layout

namespace Qp

variable {α : Type} [Stored α]

/-! ## Creation from a plan -/

theorem new_of_plan {d : Dims} {l : Layout} (hl : Layout.plan (Stored.width α) d = .ok l) :
    new (α := α) d =
      if l.memsize ≤ Word.maxBytes then (bind d (.filled l.memsize 0)).widen .arena else .breach := by
  rw [new, hl]
  rfl

theorem new_of_overflow {d : Dims} {e : ArenaError} (he : Layout.plan (Stored.width α) d = .error (.reported e)) :
    new (α := α) d = .error (.reported (.arena e)) := by
  rw [new, he]
  rfl

/-! ## The three cases -/

/-- How creating a problem of dimensions `d` ends, by the size of its block. -/
structure NewEnds (α : Type) [Stored α] [Zero α] [LawfulStored α] (d : Dims) : Prop where
  /-- The problem is new, in a block of just its size that was zero. -/
  answers : Layout.exactSize (Stored.width α) d ≤ Word.maxBytes →
    ∃ q : Qp α, new d = .ok q ∧
      BoundOver d (Layout.planned (Stored.width α) d) (.filled (Layout.exactSize (Stored.width α) d) 0) q
  reports : limit ≤ Layout.exactSize (Stored.width α) d →
    new (α := α) d = .error (.reported (.arena (.capacityExceeded Word.greatest Word.maxBytes)))
  breaks : new (α := α) d = .error .breach ↔
    Word.maxBytes < Layout.exactSize (Stored.width α) d ∧ Layout.exactSize (Stored.width α) d < limit

section Cases

variable [Zero α] [LawfulStored α] {d : Dims} (hd : d.Consistent) (hst : Word.allocates Word.width d.stages = true)
include hd hst

theorem new_of_small (h : Layout.exactSize (Stored.width α) d ≤ Word.maxBytes) :
    ∃ q : Qp α, new d = .ok q ∧
      BoundOver d (Layout.planned (Stored.width α) d) (.filled (Layout.exactSize (Stored.width α) d) 0) q := by
  have hmem := Layout.memsize_planned (Stored.width α) d
  have hmax : Word.maxBytes < limit := by decide
  rw [← hmem] at h ⊢
  have hl := Layout.plan_of_lt hd.shaped.spanned hst (FixedWidth.width_pos α) (Nat.lt_of_le_of_lt h hmax)
  rcases bind_filled (α := α) hd hl with ⟨q, hq, -, hlayout⟩
  have hover := boundOver_of_bind hd hq
  rw [hlayout] at hover
  refine ⟨q, ?_, hover⟩
  rw [new_of_plan hl, if_pos h, hq]
  rfl

omit [Zero α] [LawfulStored α] in
theorem new_of_between [FixedWidth α] (h : Word.maxBytes < Layout.exactSize (Stored.width α) d)
    (hlt : Layout.exactSize (Stored.width α) d < limit) : new (α := α) d = .error .breach := by
  rw [← Layout.memsize_planned (Stored.width α) d] at h hlt
  rw [new_of_plan (Layout.plan_of_lt hd.shaped.spanned hst (FixedWidth.width_pos α) hlt), if_neg (Nat.not_le.mpr h)]
  rfl

omit [Zero α] [LawfulStored α] in
theorem new_of_large (h : limit ≤ Layout.exactSize (Stored.width α) d) :
    new (α := α) d = .error (.reported (.arena (.capacityExceeded Word.greatest Word.maxBytes))) := by
  rw [← Layout.memsize_planned (Stored.width α) d] at h
  exact new_of_overflow (Layout.plan_overflows hd.shaped.spanned hst h)

end Cases

variable [Zero α] [LawfulStored α]

/-- A consistent record, whose arrays exist in memory, gives a problem exactly when the size is
    one that an allocation can have. It is reported when no word holds the size, and breaks for
    the sizes in between. -/
theorem new_ends {d : Dims} (hd : d.Consistent) (hmem : Word.allocates Word.width d.nx.length = true) : NewEnds α d := by
  have hst : Word.allocates Word.width d.stages = true := by rwa [hd.shaped.nx] at hmem
  constructor
  case answers => exact new_of_small hd hst
  case reports => exact new_of_large hd hst
  case breaks =>
    constructor
    · intro hbreach
      refine ⟨Nat.lt_of_not_le fun hsmall => ?_, Nat.lt_of_not_le fun hlarge => ?_⟩
      · rcases new_of_small (α := α) hd hst hsmall with ⟨q, hq, -⟩
        cases hq.symm.trans hbreach
      · cases (new_of_large (α := α) hd hst hlarge).symm.trans hbreach
    · intro h
      exact new_of_between hd hst h.1 h.2

/-- A single stage with nothing but states. -/
def statesOnly (n : Nat) : Dims := ⟨0, [n], [0], [0], [0], [0], [0], [0]⟩

theorem new_ends_states : (∃ q : Qp Binary.Double, new (statesOnly 3) = .ok q ∧ q.dims = statesOnly 3) ∧
    new (α := Binary.Double) (statesOnly 2147483648) =
      .error (.reported (.arena (.capacityExceeded Word.greatest Word.maxBytes))) := by
  have consistent (n : Nat) : (statesOnly n).Consistent := by
    refine Dims.consistent_iff.mpr ⟨⟨rfl, rfl, rfl, rfl, rfl, rfl, rfl⟩, fun i hi => ?_⟩
    cases Nat.le_zero.mp hi
    exact ⟨rfl, Nat.zero_le _, Nat.zero_le _⟩
  have few := new_ends (α := Binary.Double) (consistent 3) (by decide)
  have many := new_ends (α := Binary.Double) (consistent 2147483648) (by decide)
  rcases few.answers (by decide) with ⟨q, hq, hover⟩
  exact ⟨⟨q, hq, hover.dims⟩, many.reports (by decide)⟩

/-- The Hessian of `2 ^ 30` states takes `2 ^ 63` bytes, one more than an allocation can have:
    the problem is consistent, is planned and then breaks. -/
theorem new_breaks_wide_stage : (statesOnly 1073741824).Consistent ∧
    Layout.exactSize (Stored.width Binary.Double) (statesOnly 1073741824) = 9223372054034645248 ∧
    new (α := Binary.Double) (statesOnly 1073741824) = .error .breach := by
  have hd : (statesOnly 1073741824).Consistent := by decide
  have hsize : Layout.exactSize (Stored.width Binary.Double) (statesOnly 1073741824) = 9223372054034645248 := by decide
  exact ⟨hd, hsize, new_of_between hd (by decide) (by rw [hsize]; decide) (by rw [hsize]; decide)⟩

end Qp

end HorizonQp
