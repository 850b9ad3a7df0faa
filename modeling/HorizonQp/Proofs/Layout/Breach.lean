/-
  HorizonQp.Proofs.Layout.Breach — when a plan breaks.

  A record of dimensions may come from anywhere, with arrays of any lengths. Planning counts
  the stages in turn and looks up what it needs of each. So it breaks at the first stage that
  lacks an entry, unless a count was reported before the entry was looked up, of this stage or
  of an earlier one (`Dims.Lacks`, `Dims.Counted`). Apart from that it breaks only for a horizon
  whose tables no allocation can hold (`plan_eq_breach`).

  Entries past the horizon are never looked up, and neither are the two parts of the bounds.
-/

import HorizonQp.Proofs.Layout.Exact

namespace HorizonQp

open Word (limit)

namespace Dims

/-- The stage has all the entries that are counted, and every count fits a word. -/
structure Counted (d : Dims) (i : Nat) : Prop where
  nx : i < d.nx.length
  nu : i < d.nu.length
  nb : i < d.nb.length
  ng : i < d.ng.length
  ns : i < d.ns.length
  nux : d.nuxAt i + 1 < limit
  nv : d.nuxAt i + 2 * d.nsAt i < limit
  nc : d.ncAt i < limit

/-- An entry of the stage is missing when it is looked up. The slacks are when the inputs and
    states fit a word, and the bounds and general constraints when the variables do. -/
def Lacks (d : Dims) (i : Nat) : Prop :=
  d.nu.length ≤ i ∨ d.nx.length ≤ i ∨
    (d.nuxAt i + 1 < limit ∧
      (d.ns.length ≤ i ∨ (d.nuxAt i + 2 * d.nsAt i < limit ∧ (d.nb.length ≤ i ∨ d.ng.length ≤ i))))

/-- No allocation holds a word for every stage, or a stage lacks an entry and those before it
    are counted. -/
def Uncountable (d : Dims) : Prop :=
  Word.allocates Word.width d.stages = false ∨ ∃ i ≤ d.N, d.Lacks i ∧ ∀ j < i, d.Counted j

end Dims

namespace Layout

variable {size : Nat} {d : Dims} {i : Nat}

/-! ## The counts of a stage -/

theorem counts_answers_iff : (∃ c, counts d i = .ok c) ↔ d.Counted i := by
  simp only [counts, checked, Attempt.bind_eq_ok, Attempt.require_eq_ok, exists_entry, Attempt.orReport_eq_ok,
    Word.add?_eq_some, Word.mul?_eq_some, Option.bind_eq_bind, Option.bind_eq_some_iff, and_assoc, exists_and_left,
    exists_eq_left', Attempt.pure_eq_ok, exists_eq', and_true]
  constructor
  · intro h
    rcases h with ⟨hnu, hnx, -, hnux, hns, -, hnv, hnb, hng, -, -, hnc⟩
    exact ⟨hnx, hnu, hnb, hng, hns, hnux, hnv, hnc⟩
  · intro h
    have hnux : d.nu.getD i 0 + d.nx.getD i 0 + 1 < limit := h.nux
    have hnv : d.nu.getD i 0 + d.nx.getD i 0 + 2 * d.ns.getD i 0 < limit := h.nv
    have hnc : 2 * (d.nb.getD i 0 + d.ng.getD i 0 + d.ns.getD i 0) < limit := h.nc
    exact ⟨h.nu, h.nx, by omega, hnux, h.ns, by omega, hnv, h.nb, h.ng, by omega, by omega, hnc⟩

theorem counts_eq_breach : counts d i = .error .breach ↔ d.Lacks i := by
  have hpure (c : Counts) : (pure c : Attempt ArenaError Counts) = .error .breach ↔ False := ⟨nofun, False.elim⟩
  simp only [counts, checked, Attempt.bind_eq_error, Attempt.require_eq_breach, Attempt.require_eq_ok, exists_entry,
    Attempt.orReport_ne_breach, Attempt.orReport_eq_ok, false_or, List.getElem?_eq_none_iff, Word.add?_eq_some,
    Word.mul?_eq_some, Option.bind_eq_bind, Option.bind_eq_some_iff, and_assoc, exists_and_left, exists_eq_left', hpure,
    and_false, or_false, exists_false]
  simp only [Dims.Lacks, Dims.nuxAt, Dims.nuAt, Dims.nxAt, Dims.nsAt]
  omega

/-! ## The plan -/

/-- A stage that is counted has the entries of the step into it as well. -/
theorem steps_of_counted (h : ∀ i ≤ d.N, i < d.nx.length) :
    overStages d.ne? 0 d.N = some ((List.range d.N).map fun i => d.nxAt (i + 1)) :=
  overStages_some_map fun i hi => getElem?_eq_getD (h (i + 1) hi)

theorem plan_eq_breach : plan size d = .error .breach ↔ d.Uncountable := by
  unfold plan Dims.Uncountable
  by_cases hst : Word.allocates Word.width d.stages = true
  · rw [if_pos hst, Attempt.bind_eq_error, overStages_eq_error]
    simp only [Nat.zero_add, counts_eq_breach, counts_answers_iff, hst, Bool.true_eq_false, false_or]
    constructor
    · intro h
      rcases h with ⟨i, hi, hlacks, hbefore⟩ | ⟨cs, hcs, h⟩
      · exact ⟨i, Nat.le_of_lt_succ hi, hlacks, hbefore⟩
      · -- with every stage counted there is nothing left that could be missing
        have hx : ∀ i ≤ d.N, i < d.nx.length := by
          intro i hi
          rcases (overStages_eq_ok.mp hcs).2 i (Nat.lt_succ_of_le hi) with ⟨c, -, hc⟩
          rw [Nat.zero_add] at hc
          exact (lengths_of_counts hc).1
        rw [steps_of_counted hx, Attempt.require_some, Attempt.ok_bind] at h
        exact absurd h Attempt.orReport_ne_breach
    · intro h
      rcases h with ⟨i, hi, hlacks, hbefore⟩
      exact Or.inl ⟨i, Nat.lt_succ_of_le hi, hlacks, hbefore⟩
  · simp only [Bool.not_eq_true] at hst
    simp [hst, Attempt.breach]

theorem required?_eq_none : required? size d = none ↔ d.Uncountable := by
  rw [← @plan_eq_breach size d, required?]
  split <;> simp_all

/-! ## What is planned -/

/-- The size is that of the covered bytes and a cache line. -/
theorem arrange?_memsize {cs : List Counts} {ne : List Nat} {l : Layout} (h : arrange? d size cs ne = some l) :
    l.memsize = l.used + Word.cacheLine := by
  unfold arrange? at h
  -- everything that is sized and placed
  iterate 26 rcases Option.bind_eq_some_iff.mp h with ⟨_, -, h⟩
  rcases Word.bind_add?_eq_some.mp h with ⟨-, h⟩
  cases h
  rfl

theorem memsize_of_plan {l : Layout} (h : plan size d = .ok l) : l.memsize = l.used + Word.cacheLine := by
  unfold plan at h
  split at h
  · simp only [Attempt.bind_eq_ok, Attempt.orReport_eq_ok] at h
    rcases h with ⟨cs, -, ne, -, h⟩
    exact arrange?_memsize h
  · exact absurd h Attempt.breach_ne_ok

/-- Whatever is planned has the counts of every stage. -/
theorem counted_of_plan {l : Layout} (h : plan size d = .ok l) : ∀ i ≤ d.N, d.Counted i := by
  unfold plan at h
  split at h
  · rcases Attempt.bind_eq_ok.mp h with ⟨cs, hcs, -⟩
    intro i hi
    rcases (overStages_eq_ok.mp hcs).2 i (Nat.lt_succ_of_le hi) with ⟨c, -, hc⟩
    rw [Nat.zero_add] at hc
    exact counts_answers_iff.mp ⟨c, hc⟩
  · exact absurd h Attempt.breach_ne_ok

end Layout

end HorizonQp
