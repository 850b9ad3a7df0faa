/-
  HorizonQp.Proofs.Staged.Slacks — the rows of a stage, and what its slacks do to them.

  A slack softens a row, and several may soften the same one: `moved` is what all of them
  move a row by. With it every row of a stage is a sum (`inequalities_entries`),
  and so is the stationarity in the slacks (`lowerSlackStationarity_entry`,
  `upperSlackStationarity_entry`), for any index array that points inside the rows, entries
  repeated or not.
-/

import HorizonQp.Proofs.Staged.Formula

namespace HorizonQp

open Linear (Matrix axpby gather scatterAdd)
open Finset (range)

namespace Stage

section Runs

variable {α : Type}

theorem run_entry (x : List α) {first len j : Nat} (hj : j < len) (a : α) :
    (run x first len).getD j a = x.getD (first + j) a := by
  rw [run, Linear.getD_take _ _ hj, Linear.getD_drop]

end Runs

variable {K : Type} [ExactField K]

/-- The value at `v` of row `k`: of a bounded variable, or of a general constraint behind the bounds. -/
def constraint (s : Stage K) (v : List K) (k : Nat) : K :=
  if k < s.nb then v.getD (s.idxb.getD k 0) 0 else ∑ i ∈ range s.nux, s.DCt.entry i (k - s.nb) * v.getD i 0

/-- What the slacks move row `k` by, slack `j` being `slack j`. -/
def moved (s : Stage K) (slack : Nat → K) (k : Nat) : K := ∑ j ∈ range s.ns, if s.idxs.getD j 0 = k then slack j else 0

variable {s : Stage K}

theorem constraint_bound (v : List K) {k : Nat} (hk : k < s.nb) : s.constraint v k = v.getD (s.idxb.getD k 0) 0 :=
  if_pos hk

theorem constraint_general (v : List K) (k : Nat) :
    s.constraint v (s.nb + k) = ∑ i ∈ range s.nux, s.DCt.entry i k * v.getD i 0 := by
  rw [constraint, if_neg (Nat.not_lt.mpr (Nat.le_add_right ..)), Nat.add_sub_cancel_left]

/-- Slacks that move their rows by a multiple of themselves, in any order. -/
theorem shift_entry (hs : s.Shaped) {move : K → K → K} (c : K) (hmove : ∀ a x, move a x = a + c * x) {slack : List K}
    (hslack : slack.length = s.ns) {side : List K} {k : Nat} (hk : k < side.length) :
    (s.shift move slack side).getD k 0 = side.getD k 0 + c * s.moved (slack.getD · 0) k := by
  have hscatter : s.shift move slack side = scatterAdd c slack s.idxs side := by
    rw [shift, scatterAdd, ← List.zip_swap, List.foldl_map]
    simp only [hmove, Prod.fst_swap, Prod.snd_swap]
  rw [hscatter, Linear.scatterAdd_entry c (hslack.trans hs.idxs.symm) hk, hs.idxs, moved, Finset.mul_sum]
  simp only [mul_ite, mul_zero]

theorem moved_run (v : List K) (first k : Nat) :
    s.moved ((run v first s.ns).getD · 0) k = s.moved (fun j => v.getD (first + j) 0) k := by
  refine Finset.sum_congr rfl fun j hj => ?_
  simp only [run_entry v (Finset.mem_range.mp hj)]

variable [DecidableEq K] (hs : s.Shaped)
include hs

/-! ## Rows -/

theorem negatedValues_entry (hi : ∀ k ∈ s.idxb, k < s.nux) {v : List K} (hv : v.length = s.nv) {k : Nat}
    (hk : k < s.rows) : (s.negatedValues v).getD k 0 = -s.constraint v k := by
  rw [negatedValues, Linear.getD_append_ite, Linear.length_gather, hs.idxb, constraint]
  split
  case isTrue hb =>
    have hb : k < s.idxb.length := by rwa [hs.idxb]
    rw [Linear.gather_entry _ _ hb, ux, Linear.getD_take _ _ (Linear.getD_lt hi hb), neg_one_mul]
  case isFalse hb =>
    have hux := length_ux hv
    have hk : k - s.nb < s.ng := by rw [rows] at hk; omega
    rw [Matrix.transposedProduct_entry _ _ _ (by rw [hux, hs.DCt_rows]) (by rwa [hs.DCt_cols])
        (by rwa [List.length_replicate]), zero_mul, add_zero, neg_one_mul, hux]
    congr 1
    refine Finset.sum_congr rfl fun i hi => ?_
    rw [ux, Linear.getD_take _ _ (Finset.mem_range.mp hi)]

section Rows

variable (hi : ∀ k ∈ s.idxb, k < s.nux) {v : List K} (hv : v.length = s.nv) {t : List K} (ht : t.length = s.nc)
include hi hv ht

theorem lowerRows_entry {k : Nat} (hk : k < s.rows) :
    (s.lowerRows v t).getD k 0 =
      -(s.constraint v k + s.moved (fun j => v.getD (s.nux + j) 0) k) + s.d.getD k 0 + t.getD k 0 := by
  have hn : (s.shift (· - ·) (s.sl v) (s.negatedValues v)).length = s.rows :=
    (length_shift _ _ _).trans (length_negatedValues hs v)
  have hd := length_lower hs.d
  have ht := length_lower ht
  have hin := (Linear.length_axpby (a := (1 : K)) (b := 1) (hd.trans hn.symm)).trans hn
  rw [lowerRows, Linear.axpby_entry _ _ (ht.trans hin.symm), Linear.axpby_entry _ _ (hd.trans hn.symm), lower_entry hk,
    lower_entry hk, shift_entry hs (-1) (fun a x => by ring) (length_sl hv) (by rwa [length_negatedValues hs]),
    negatedValues_entry hs hi hv hk, sl, moved_run]
  ring

theorem upperRows_entry {k : Nat} (hk : k < s.rows) :
    (s.upperRows v t).getD k 0 =
      -(s.constraint v k - s.moved (fun j => v.getD (s.nux + s.ns + j) 0) k) - s.d.getD (s.rows + k) 0
        - t.getD (s.rows + k) 0 := by
  have hn : (s.shift (· + ·) (s.su v) (s.negatedValues v)).length = s.rows :=
    (length_shift _ _ _).trans (length_negatedValues hs v)
  have hd := length_upper hs.d
  have ht := length_upper ht
  have hin := (Linear.length_axpby (a := (-1 : K)) (b := 1) (hd.trans hn.symm)).trans hn
  rw [upperRows, Linear.axpby_entry _ _ (ht.trans hin.symm), Linear.axpby_entry _ _ (hd.trans hn.symm), upper_entry hk,
    upper_entry hk, shift_entry hs 1 (fun a x => by ring) (length_su hv) (by rwa [length_negatedValues hs]),
    negatedValues_entry hs hi hv hk, su, moved_run]
  ring

end Rows

omit hs in
/-- The rows that keep slacks `slack` above their bounds. -/
theorem ownRows_entry {own slack bound : List K} (hown : own.length = s.ns) (hslack : slack.length = s.ns)
    (hbound : bound.length = s.ns) (j : Nat) :
    (axpby 1 own 1 (axpby (-1) slack 1 bound)).getD j 0 = -slack.getD j 0 + bound.getD j 0 + own.getD j 0 := by
  have hin := (Linear.length_axpby (a := (-1 : K)) (b := 1) (hslack.trans hbound.symm)).trans hbound
  rw [Linear.axpby_entry _ _ (hown.trans hin.symm), Linear.axpby_entry _ _ (hslack.trans hbound.symm)]
  ring

section Inequalities

variable (hi : ∀ k ∈ s.idxb, k < s.nux) {v : List K} (hv : v.length = s.nv) {t : List K} (ht : t.length = s.nc)
include hi hv ht

/-- The four groups of rows, one behind the other. -/
theorem inequalities_entries :
    (∀ k < s.rows, (s.inequalities v t).getD k 0 =
      -(s.constraint v k + s.moved (fun j => v.getD (s.nux + j) 0) k) + s.d.getD k 0 + t.getD k 0) ∧
    (∀ k < s.rows, (s.inequalities v t).getD (s.rows + k) 0 =
      -(s.constraint v k - s.moved (fun j => v.getD (s.nux + s.ns + j) 0) k) - s.d.getD (s.rows + k) 0
        - t.getD (s.rows + k) 0) ∧
    (∀ j < s.ns, (s.inequalities v t).getD (2 * s.rows + j) 0 =
      -v.getD (s.nux + j) 0 + s.d.getD (2 * s.rows + j) 0 + t.getD (2 * s.rows + j) 0) ∧
    ∀ j < s.ns, (s.inequalities v t).getD (2 * s.rows + s.ns + j) 0 =
      -v.getD (s.nux + s.ns + j) 0 + s.d.getD (2 * s.rows + s.ns + j) 0 + t.getD (2 * s.rows + s.ns + j) 0 := by
  have hlow := length_lowerRows hs v ht
  have hup := length_upperRows hs v ht
  have hls := length_ownRows (length_ls ht) (length_sl hv) (length_ls hs.d)
  rw [inequalities]
  refine ⟨fun k hk => ?_, fun k hk => ?_, fun j hj => ?_, fun j hj => ?_⟩
  · simp only [Linear.getD_append_ite, List.length_append, hlow, hup, hls]
    rw [if_pos (by omega), if_pos (by omega), if_pos hk, lowerRows_entry hs hi hv ht hk]
  · simp only [Linear.getD_append_ite, List.length_append, hlow, hup, hls]
    rw [if_pos (by omega), if_pos (by omega), if_neg (by omega), Nat.add_sub_cancel_left, upperRows_entry hs hi hv ht hk]
  · simp only [Linear.getD_append_ite, List.length_append, hlow, hup, hls]
    rw [if_pos (by omega), if_neg (by omega), show 2 * s.rows + j - (s.rows + s.rows) = j by omega,
      ownRows_entry (length_ls ht) (length_sl hv) (length_ls hs.d), ls, ls, sl, run_entry _ hj, run_entry _ hj,
      run_entry _ hj]
  · simp only [Linear.getD_append_ite, List.length_append, hlow, hup, hls]
    rw [if_neg (by omega), show 2 * s.rows + s.ns + j - (s.rows + s.rows + s.ns) = j by omega,
      ownRows_entry (length_us ht) (length_su hv) (length_us hs.d), us, us, su, run_entry _ hj, run_entry _ hj,
      run_entry _ hj]

end Inequalities

/-! ## Stationarity in the slacks -/

theorem slackStationarity_entry (side : List K) {own z Z slack : List K} (hown : own.length = s.ns) (hz : z.length = s.ns)
    (hZ : Z.length = s.ns) (hslack : slack.length = s.ns) {j : Nat} (hj : j < s.ns) :
    (s.slackStationarity side own z Z slack).getD j 0 =
      Z.getD j 0 * slack.getD j 0 + z.getD j 0 + side.getD (s.idxs.getD j 0) 0 + own.getD j 0 := by
  have hg : (gather 1 side s.idxs).length = s.ns := (Linear.length_gather ..).trans hs.idxs
  have hin := (Linear.length_axpby (a := (1 : K)) (b := 1) (hown.trans hg.symm)).trans hg
  have hr := (Linear.length_axpby (a := (1 : K)) (b := 1) (hz.trans hin.symm)).trans hin
  have hzip : (Z.zip slack).length = s.ns := by rw [List.length_zip, hZ, hslack, Nat.min_self]
  have hpair : (Z.zip slack).getD j (0, 0) = (Z.getD j 0, slack.getD j 0) :=
    Linear.getD_zipWith _ 0 0 _ (by rwa [hZ]) (by rwa [hslack])
  rw [slackStationarity, Linear.getD_zipWith _ 0 (0, 0) 0 (by rwa [hr]) (by rwa [hzip]), hpair,
    Linear.axpby_entry _ _ (hz.trans hin.symm), Linear.axpby_entry _ _ (hown.trans hg.symm),
    Linear.gather_entry _ _ (by rwa [hs.idxs])]
  ring

section Slacks

variable (hi : ∀ k ∈ s.idxs, k < s.rows) {v lam : List K} (hv : v.length = s.nv) (hlam : lam.length = s.nc)
include hi hv hlam

theorem lowerSlackStationarity_entry {j : Nat} (hj : j < s.ns) :
    (s.lowerSlackStationarity v lam).getD j 0 =
      s.Z.getD j 0 * v.getD (s.nux + j) 0 + s.rqz.getD (s.nux + j) 0 + lam.getD (s.idxs.getD j 0) 0
        + lam.getD (2 * s.rows + j) 0 := by
  have hz : (run s.rqz s.nux s.ns).length = s.ns := length_run (by rw [hs.rqz, nv]; omega)
  have hZ : (s.Z.take s.ns).length = s.ns := List.length_take_of_le (by rw [hs.Z]; omega)
  rw [lowerSlackStationarity, slackStationarity_entry hs (s.lower lam) (length_ls hlam) hz hZ (length_sl hv) hj,
    Linear.getD_take _ _ hj, run_entry _ hj, lower_entry (Linear.getD_lt hi (by rwa [hs.idxs])), ls, run_entry _ hj, sl,
    run_entry _ hj]

theorem upperSlackStationarity_entry {j : Nat} (hj : j < s.ns) :
    (s.upperSlackStationarity v lam).getD j 0 =
      s.Z.getD (s.ns + j) 0 * v.getD (s.nux + s.ns + j) 0 + s.rqz.getD (s.nux + s.ns + j) 0
        + lam.getD (s.rows + s.idxs.getD j 0) 0 + lam.getD (2 * s.rows + s.ns + j) 0 := by
  have hz : (s.rqz.drop (s.nux + s.ns)).length = s.ns := by rw [List.length_drop, hs.rqz, nv]; omega
  have hZ : (s.Z.drop s.ns).length = s.ns := by rw [List.length_drop, hs.Z]; omega
  rw [upperSlackStationarity, slackStationarity_entry hs (s.upper lam) (length_us hlam) hz hZ (length_su hv) hj,
    Linear.getD_drop, Linear.getD_drop, upper_entry (Linear.getD_lt hi (by rwa [hs.idxs])), us, run_entry _ hj,
    su, run_entry _ hj]

end Slacks

end Stage

end HorizonQp
