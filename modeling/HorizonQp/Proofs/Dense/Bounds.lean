/-
  HorizonQp.Proofs.Dense.Bounds — what the bounds of a dense problem are after any calls.

  A `BoundCall` sets a side of the bounds or the bounded variables. It is accepted exactly
  when its array fits (`BoundCall.Fits`), and does everything or nothing although it writes
  entry by entry in place (`BoundCall.leaves_eq`): the check of the length comes first, and
  no write after it can fail.

  The rule for one call (`BoundCall.leaves_withBounds`): an accepted one replaces its side
  of `d = [lb; lg; -ub; -ug]`, with the sign it is held in, or the array `idxb`; the other
  sides and every other part of the problem stay. So after any calls a side is held as the
  last of its calls that fitted gave it, and as before if there was none
  (`runs_withBounds`): on a new problem, as zeros.
  Reading a side gives what was given, if changing a sign twice changes nothing, into a
  buffer of the side's length and into no other (`bounds_stored`).

  All this holds of dimensions whose rows a word counts (`DenseDims.Counted`), and of no
  others: a new problem is made of those as well, but with fewer rows than its sides have,
  and setting its upper bounds has no answer (`set_ub_of_not_counted`).
-/

import HorizonQp.Binary.Numbers
import HorizonQp.Proofs.Dense.Update

namespace HorizonQp

/-! ## Entry by entry -/

/-- Writes the entries to the places from `start` on, one after the other. -/
def putEntries {α : Type} (start : Nat) (xs : List α) : List (List α → Attempt QpError (List α)) :=
  xs.mapIdx fun k x y => .ok (y.set (start + k) x)

theorem putEntries_cons {α : Type} (start : Nat) (x : α) (xs : List α) :
    putEntries start (x :: xs) = (fun y => .ok (y.set start x)) :: putEntries (start + 1) xs := by
  simp only [putEntries, List.mapIdx_cons, Nat.add_zero, Nat.add_right_comm, Nat.add_assoc]

theorem inTurn_putEntries {α : Type} (front back : List α) {old new : List α} (h : old.length = new.length) :
    inTurn (putEntries front.length new) (front ++ (old ++ back)) = .ok (front ++ (new ++ back)) := by
  induction new generalizing front old with
  | nil =>
    cases old with
    | nil => rfl
    | cons _ _ => cases h
  | cons x new ih =>
    cases old with
    | nil => cases h
    | cons o old =>
      have hput : (front ++ (o :: old ++ back)).set front.length x = front ++ [x] ++ (old ++ back) := by simp
      have hrest := ih (front ++ [x]) (Nat.succ.inj h)
      rw [List.length_append, List.length_singleton] at hrest
      rw [putEntries_cons, inTurn_cons, Attempt.ok_bind, hput, hrest, List.append_assoc]
      rfl

namespace DenseQp

variable {α : Type} (q : DenseQp α)

/-- What comes before the entries of a side are touched: an array of its length, and `d` long
    enough to hold it. -/
def checkSide (side : Side) (len : Nat) : Attempt QpError Unit := do
  .ofExcept (checkLength (side.length q.dims) len)
  if side.start q.dims + side.length q.dims ≤ q.d.length then pure () else .breach

/-- The entries that `d` holds in the place of a side. -/
def rows (side : Side) : List α := (q.d.drop (side.start q.dims)).take (side.length q.dims)

/-- A step on the rows of `d`. -/
def onRows (step : List α → Attempt QpError (List α)) (q : DenseQp α) : Attempt QpError (DenseQp α) := do
  let d ← step q.d
  pure { q with d }

theorem inTurn_onRows (steps : List (List α → Attempt QpError (List α))) (q : DenseQp α) :
    inTurn (steps.map onRows) q = inTurn steps q.d >>= fun d => pure { q with d } := by
  induction steps generalizing q with
  | nil => rfl
  | cons step steps ih =>
    rw [List.map_cons, inTurn_cons, inTurn_cons, onRows]
    cases step q.d with
    | error failure => rfl
    | ok d => exact ih { q with d }

variable [Neg α]

theorem length_signed (side : Side) (x : List α) : (signed side x).length = x.length := by
  unfold signed
  split
  · exact List.length_map _
  · rfl

theorem signed_signed (hneg : ∀ x : α, - -x = x) (side : Side) (x : List α) : signed side (signed side x) = x := by
  unfold signed
  split
  · rw [List.map_map, show (Neg.neg ∘ Neg.neg : α → α) = id from funext hneg, List.map_id]
  · rfl

/-- Reading a side in place: the checks, then the entries of the buffer. -/
def readSteps (side : Side) : List (List α → Attempt QpError (List α)) :=
  (fun out => do
    q.checkSide side out.length
    pure out) :: putEntries 0 (signed side (q.rows side))

/-- The buffer that reading a side leaves, and how the reading ends. -/
def readInto (side : Side) (out : List α) : List α × Attempt QpError Unit := inPlace (q.readSteps side) out

end DenseQp

/-! ## A call -/

/-- A call that sets a side of the bounds, or the bounded variables. -/
inductive BoundCall (α : Type) where
  | side (which : Side) (x : List α)
  | bounded (idxb : List Nat)
  deriving DecidableEq, Repr

namespace BoundCall

variable {α : Type}

/-- The array is as long as the part that it is for, and names variables that exist. -/
def Fits (d : DenseDims) : BoundCall α → Prop
  | side which x => x.length = which.length d
  | bounded idxb => idxb.length = d.nb ∧ ∀ k ∈ idxb, k < d.nv

instance (d : DenseDims) (c : BoundCall α) : Decidable (c.Fits d) :=
  match c with
  | side which x => inferInstanceAs (Decidable (x.length = which.length d))
  | bounded idxb => inferInstanceAs (Decidable (idxb.length = d.nb ∧ ∀ k ∈ idxb, k < d.nv))

/-- The bounds that a call gives to a side if it is accepted. -/
def given? (d : DenseDims) (which : Side) (c : BoundCall α) : Option (List α) :=
  match c with
  | side which' x => if which' = which ∧ c.Fits d then some x else none
  | bounded _ => none

/-- The variables that a call gives if it is accepted. -/
def givenVariables? (d : DenseDims) (c : BoundCall α) : Option (List Nat) :=
  match c with
  | side _ _ => none
  | bounded idxb => if c.Fits d then some idxb else none

variable [Neg α]

def run (q : DenseQp α) : BoundCall α → Attempt QpError (DenseQp α)
  | side which x => q.set which x
  | bounded idxb => q.setIdxb idxb

/-- The steps of a call, in the order it makes them. -/
def steps (d : DenseDims) : BoundCall α → List (DenseQp α → Attempt QpError (DenseQp α))
  | side which x =>
    (fun q => do
      q.checkSide which x.length
      pure q) :: (putEntries (which.start d) (DenseQp.signed which x)).map DenseQp.onRows
  | bounded idxb => [fun q => q.setIdxb idxb]

/-- The problem that a call leaves, and how the call ends. -/
def leaves (q : DenseQp α) (c : BoundCall α) : DenseQp α × Attempt QpError Unit := inPlace (c.steps q.dims) q

/-- The problem after the calls, whether they are accepted or not. -/
def runs (calls : List (BoundCall α)) (q : DenseQp α) : DenseQp α := calls.foldl (fun q c => (c.leaves q).1) q

end BoundCall

/-! ## Calls do everything or nothing -/

namespace DenseQp

variable {α : Type} {q : DenseQp α}

theorem checkSide_eq_ok {side : Side} {len : Nat} :
    q.checkSide side len = .ok () ↔
      side.length q.dims = len ∧ side.start q.dims + side.length q.dims ≤ q.d.length := by
  rw [checkSide, Attempt.bind_eq_ok]
  simp only [Attempt.check_eq_ok, checkLength_eq_ok]
  refine and_congr_right fun _ => ?_
  split
  case isTrue h => exact ⟨fun _ => h, fun _ => rfl⟩
  case isFalse h => exact ⟨fun hb => absurd hb Attempt.breach_ne_ok, fun hin => absurd hin h⟩

variable [Neg α]

theorem set_eq (side : Side) (x : List α) :
    q.set side x = q.checkSide side x.length >>= fun _ =>
      pure { q with
        d := q.d.take (side.start q.dims) ++ signed side x ++ q.d.drop (side.start q.dims + side.length q.dims) } := by
  rw [set, checkSide]
  cases checkLength (side.length q.dims) x.length with
  | error e => rfl
  | ok u =>
    simp only [Attempt.ofExcept, Attempt.ok_bind]
    split <;> rfl

theorem get_eq (side : Side) (len : Nat) :
    q.get side len = q.checkSide side len >>= fun _ => pure (signed side (q.rows side)) := by
  rw [get, checkSide]
  cases checkLength (side.length q.dims) len with
  | error e => rfl
  | ok u =>
    simp only [Attempt.ofExcept, Attempt.ok_bind]
    split <;> rfl

/-- The entries of a side written one after the other. -/
theorem inTurn_putSide {side : Side} {x : List α} (hlen : side.length q.dims = x.length)
    (hin : side.start q.dims + side.length q.dims ≤ q.d.length) :
    inTurn (putEntries (side.start q.dims) (signed side x)) q.d =
      .ok (q.d.take (side.start q.dims) ++ signed side x ++ q.d.drop (side.start q.dims + side.length q.dims)) := by
  have hd : q.d = q.d.take (side.start q.dims) ++
      (q.rows side ++ q.d.drop (side.start q.dims + side.length q.dims)) := by
    rw [rows, ← List.drop_drop, List.take_append_drop, List.take_append_drop]
  have hold : (q.rows side).length = (signed side x).length := by
    rw [length_signed, rows, List.length_take, List.length_drop]
    omega
  have hfront : (q.d.take (side.start q.dims)).length = side.start q.dims := by
    rw [List.length_take]
    omega
  have h := inTurn_putEntries (q.d.take (side.start q.dims)) (q.d.drop (side.start q.dims + side.length q.dims)) hold
  rwa [← hd, hfront, ← List.append_assoc] at h

end DenseQp

namespace BoundCall

variable {α : Type} [Neg α] {q : DenseQp α}

theorem leaves_eq (c : BoundCall α) : c.leaves q = allOrNothing q (c.run q) := by
  cases c with
  | bounded idxb => exact inPlace_single ..
  | side which x =>
    rw [run, DenseQp.set_eq]
    refine inPlace_checked (fun q : DenseQp α => q.checkSide which x.length) fun hc => ?_
    obtain ⟨hlen, hin⟩ := DenseQp.checkSide_eq_ok.mp hc
    rw [DenseQp.inTurn_onRows, DenseQp.inTurn_putSide hlen hin]
    rfl

end BoundCall

/-- Reading a side fills the buffer or leaves it alone. -/
theorem DenseQp.readInto_eq {α : Type} [Neg α] {q : DenseQp α} (side : Side) (out : List α) :
    q.readInto side out = allOrNothing out (q.get side out.length) := by
  rw [get_eq]
  refine inPlace_checked (fun out : List α => q.checkSide side out.length) fun hc => ?_
  obtain ⟨hlen, hin⟩ := checkSide_eq_ok.mp hc
  have hout : out.length = (signed side (q.rows side)).length := by
    rw [length_signed, rows, List.length_take, List.length_drop]
    omega
  have h := inTurn_putEntries [] [] hout
  simpa only [List.nil_append, List.append_nil, List.length_nil] using h

/-! ## How a call ends -/

theorem DenseQp.setIdxb_eq_ok {α : Type} {q q' : DenseQp α} {idxb : List Nat} :
    q.setIdxb idxb = .ok q' ↔ q.dims.nb = idxb.length ∧ (∀ k ∈ idxb, k < q.dims.nv) ∧
      q.idxb.length = idxb.length ∧ { q with idxb } = q' := by
  simp only [setIdxb, Attempt.bind_eq_ok, Attempt.check_eq_ok, checkLength_eq_ok, checkIndices_eq_ok]
  refine and_congr_right fun _ => and_congr_right fun _ => ?_
  split
  case isTrue h => exact Attempt.pure_eq_ok.trans (and_iff_right h).symm
  case isFalse h => exact ⟨fun hb => absurd hb Attempt.breach_ne_ok, fun hr => absurd hr.1 h⟩

section Endings

variable {α : Type} {q : DenseQp α} (hc : q.dims.Counted) (hd : q.d.length = q.dims.nc)
include hc hd

theorem DenseQp.checkSide_ends (side : Side) (len : Nat) :
    (q.checkSide side len).AnswersIff (len = side.length q.dims) QpError.AboutArrays := by
  have hin : side.start q.dims + side.length q.dims ≤ q.d.length := hd ▸ side.start_add_length_le hc
  constructor
  · constructor
    · rintro ⟨u, hc⟩
      exact (checkSide_eq_ok.mp hc).1.symm
    · intro hlen
      exact ⟨(), checkSide_eq_ok.mpr ⟨hlen.symm, hin⟩⟩
  · refine .bind (checkLength_fails trivial) fun _ _ => ?_
    rw [if_pos hin]
    exact .ok ()

variable [Neg α]

theorem DenseQp.get_ends (side : Side) (len : Nat) :
    (q.get side len).AnswersIff (len = side.length q.dims) QpError.AboutArrays := by
  rw [get_eq]
  exact (checkSide_ends hc hd side len).map _

namespace BoundCall

theorem run_ends (hi : q.idxb.length = q.dims.nb) (c : BoundCall α) :
    (c.run q).AnswersIff (c.Fits q.dims) QpError.AboutArrays := by
  cases c with
  | side which x =>
    rw [run, DenseQp.set_eq]
    exact (DenseQp.checkSide_ends hc hd which x.length).map _
  | bounded idxb =>
    rw [run]
    constructor
    · simp only [DenseQp.setIdxb_eq_ok, Fits]
      constructor
      · rintro ⟨q', hlen, hlt, -, -⟩
        exact ⟨hlen.symm, hlt⟩
      · rintro ⟨hlen, hlt⟩
        exact ⟨_, hlen.symm, hlt, hi.trans hlen.symm, rfl⟩
    · refine .bind (checkLength_fails trivial) fun _ hlen => .bind (checkIndices_fails fun _ _ _ => trivial) fun _ _ => ?_
      have hlen := checkLength_eq_ok.mp (Attempt.ofExcept_eq_ok.mp hlen)
      rw [if_pos (hi.trans hlen)]
      exact .ok _

end BoundCall

end Endings

/-! ## What is held -/

/-- The problem with other bounds and other bounded variables. -/
def DenseQp.withBounds {α : Type} (q : DenseQp α) (f : Side → List α) (idxb : List Nat) : DenseQp α :=
  { q with d := f .lb ++ f .lg ++ f .ub ++ f .ug, idxb }

/-- The sides and the variables are as many as the dimensions say, and a word counts them. -/
structure DenseDims.Takes {α : Type} (d : DenseDims) (f : Side → List α) (idxb : List Nat) : Prop where
  counted : d.Counted
  sides : ∀ side, (f side).length = side.length d
  bounded : idxb.length = d.nb

theorem DenseQp.length_withBounds {α : Type} {q : DenseQp α} {f : Side → List α} {idxb : List Nat}
    (h : q.dims.Takes f idxb) : (q.withBounds f idxb).d.length = q.dims.nc := by
  have hlb := h.sides .lb
  have hlg := h.sides .lg
  have hub := h.sides .ub
  have hug := h.sides .ug
  simp only [Side.length] at hlb hlg hub hug
  simp only [DenseQp.withBounds, List.length_append, h.counted.nc_eq]
  omega

/-- Entries put in the place of a side replace it alone. -/
theorem DenseQp.replaced_append {α : Type} {q : DenseQp α} {f f' : Side → List α} {idxb : List Nat} {which : Side}
    (h : q.dims.Takes f idxb) (hkept : ∀ other, other ≠ which → f' other = f other) :
    (q.withBounds f idxb).d.take (which.start q.dims) ++ f' which ++
        (q.withBounds f idxb).d.drop (which.start q.dims + which.length q.dims) =
      f' .lb ++ f' .lg ++ f' .ub ++ f' .ug := by
  rw [which.start_eq h.counted]
  have hfront := Side.length_ahead q.dims which h.sides
  have hside : (Side.ahead f which ++ f which).length = which.offset q.dims + which.length q.dims := by
    rw [List.length_append, hfront, h.sides]
  rw [withBounds, Side.append_eq which f, List.take_left' hfront, ← List.append_assoc (Side.ahead f which) (f which),
    List.drop_left' hside, Side.append_eq which f', Side.ahead_congr hkept, Side.behind_congr hkept, List.append_assoc]

theorem DenseQp.checkSide_withBounds {α : Type} {q : DenseQp α} {f : Side → List α} {idxb : List Nat}
    (h : q.dims.Takes f idxb) (which : Side) :
    (q.withBounds f idxb).checkSide which (which.length q.dims) = .ok () :=
  checkSide_eq_ok.mpr ⟨rfl, length_withBounds h ▸ which.start_add_length_le h.counted⟩

theorem DenseQp.set_withBounds {α : Type} [Neg α] {q : DenseQp α} {f f' : Side → List α} {idxb : List Nat}
    {which : Side} {x : List α} (h : q.dims.Takes f idxb) (hx : x.length = which.length q.dims)
    (hset : f' which = signed which x) (hkept : ∀ other, other ≠ which → f' other = f other) :
    (q.withBounds f idxb).set which x = .ok (q.withBounds f' idxb) := by
  have hrows := replaced_append h hkept
  rw [hset] at hrows
  rw [set_eq, hx, checkSide_withBounds h, Attempt.ok_bind, Attempt.pure_eq_ok]
  exact congrArg (fun d => { q.withBounds f idxb with d }) hrows

theorem DenseQp.get_withBounds {α : Type} [Neg α] {q : DenseQp α} {f : Side → List α} {idxb : List Nat}
    (h : q.dims.Takes f idxb) (which : Side) :
    (q.withBounds f idxb).get which (which.length q.dims) = .ok (signed which (f which)) := by
  have hrows : (q.withBounds f idxb).rows which = f which := by
    rw [rows, withBounds, which.start_eq h.counted]
    exact which.part_append q.dims h.sides
  rw [get_eq, checkSide_withBounds h, Attempt.ok_bind, Attempt.pure_eq_ok, hrows]

namespace BoundCall

variable {α : Type}

/-- The bounds that the last accepted call for a side gave it. -/
def lastGiven? (d : DenseDims) (calls : List (BoundCall α)) (which : Side) : Option (List α) :=
  (calls.filterMap (given? d which)).getLast?

/-- The variables that the last accepted call for them gave. -/
def lastVariables? (d : DenseDims) (calls : List (BoundCall α)) : Option (List Nat) :=
  (calls.filterMap (givenVariables? d)).getLast?

theorem getLast?_filterMap_cons {β γ : Type} (f : β → Option γ) (x : β) (xs : List β) :
    ((x :: xs).filterMap f).getLast? = (xs.filterMap f).getLast?.or (f x) := by
  rw [List.filterMap_cons]
  cases f x with
  | none => rw [Option.or_none]
  | some y =>
    rw [List.getLast?_cons]
    cases (xs.filterMap f).getLast? <;> rfl

/-- The bounded variables where `idxb` stood, after the calls. -/
def variablesAfter (d : DenseDims) (calls : List (BoundCall α)) (idxb : List Nat) : List Nat :=
  (lastVariables? d calls).getD idxb

theorem variablesAfter_cons (d : DenseDims) (c : BoundCall α) (calls : List (BoundCall α)) (idxb : List Nat) :
    variablesAfter d (c :: calls) idxb = variablesAfter d calls ((c.givenVariables? d).getD idxb) := by
  rw [variablesAfter, variablesAfter, lastVariables?, getLast?_filterMap_cons, ← lastVariables?]
  cases lastVariables? d calls <;> rfl

variable [Neg α]

/-- The sides of `d` where those of `f` stood, after one call. -/
def put (d : DenseDims) (c : BoundCall α) (f : Side → List α) (which : Side) : List α :=
  ((c.given? d which).map (DenseQp.signed which)).getD (f which)

/-- The sides of `d` where those of `f` stood, after the calls. -/
def heldAfter (d : DenseDims) (calls : List (BoundCall α)) (f : Side → List α) (which : Side) : List α :=
  ((lastGiven? d calls which).map (DenseQp.signed which)).getD (f which)

theorem heldAfter_cons (d : DenseDims) (c : BoundCall α) (calls : List (BoundCall α)) (f : Side → List α) :
    heldAfter d (c :: calls) f = heldAfter d calls (c.put d f) := by
  funext which
  rw [heldAfter, heldAfter, lastGiven?, getLast?_filterMap_cons, ← lastGiven?]
  cases lastGiven? d calls which <;> rfl

variable {d : DenseDims} {c : BoundCall α} {f : Side → List α} {idxb : List Nat}

/-- With its sign changed back a side is what it was given. -/
theorem signed_heldAfter (hneg : ∀ x : α, - -x = x) (calls : List (BoundCall α)) (which : Side) :
    DenseQp.signed which (heldAfter d calls f which) = (lastGiven? d calls which).getD (DenseQp.signed which (f which)) := by
  rw [heldAfter]
  cases lastGiven? d calls which with
  | none => rfl
  | some x => exact DenseQp.signed_signed hneg which x

theorem put_side {which : Side} {x : List α} (h : (side which x).Fits d) :
    (side which x).put d f which = DenseQp.signed which x := by
  rw [put, given?, if_pos ⟨rfl, h⟩]
  rfl

theorem put_other {which other : Side} {x : List α} (hne : other ≠ which) : (side which x).put d f other = f other := by
  rw [put, given?, if_neg fun h => hne h.1.symm]
  rfl

theorem put_of_not_fits (h : ¬c.Fits d) (f : Side → List α) (idxb : List Nat) :
    c.put d f = f ∧ (c.givenVariables? d).getD idxb = idxb := by
  cases c with
  | side which x =>
    refine ⟨funext fun other => ?_, rfl⟩
    rw [put, given?, if_neg fun hfit => h hfit.2]
    rfl
  | bounded idxb' =>
    refine ⟨rfl, ?_⟩
    rw [givenVariables?, if_neg h]
    rfl

theorem Takes.put (h : d.Takes f idxb) (c : BoundCall α) : d.Takes (c.put d f) ((c.givenVariables? d).getD idxb) := by
  by_cases hc : c.Fits d
  · cases c with
    | side which x =>
      refine ⟨h.counted, fun other => ?_, h.bounded⟩
      by_cases hw : other = which
      · rw [hw, put_side hc, DenseQp.length_signed, hc]
      · rw [put_other hw, h.sides]
    | bounded idxb' =>
      refine ⟨h.counted, h.sides, ?_⟩
      rw [givenVariables?, if_pos hc]
      exact hc.1
  · obtain ⟨hput, hvariables⟩ := put_of_not_fits hc f idxb
    rwa [hput, hvariables]

theorem takes_after (h : d.Takes f idxb) (calls : List (BoundCall α)) :
    d.Takes (heldAfter d calls f) (variablesAfter d calls idxb) := by
  induction calls generalizing f idxb with
  | nil => exact h
  | cons c calls ih =>
    rw [heldAfter_cons, variablesAfter_cons]
    exact ih (Takes.put h c)

section Runs

variable {q : DenseQp α} (h : q.dims.Takes f idxb)
include h

/-- What one call leaves: with an array that fits that array in its place, and otherwise the
    problem as it was. -/
theorem leaves_withBounds (c : BoundCall α) :
    (c.leaves (q.withBounds f idxb)).1 = q.withBounds (c.put q.dims f) ((c.givenVariables? q.dims).getD idxb) := by
  rw [leaves_eq]
  by_cases hc : c.Fits q.dims
  · cases c with
    | side which x =>
      rw [run, DenseQp.set_withBounds h hc (put_side hc) fun other hne => put_other hne]
      rfl
    | bounded idxb' =>
      have hset := (DenseQp.setIdxb_eq_ok (q := q.withBounds f idxb)).mpr
        ⟨hc.1.symm, hc.2, h.bounded.trans hc.1.symm, rfl⟩
      rw [run, hset, givenVariables?, if_pos hc]
      rfl
  · rcases (run_ends (q := q.withBounds f idxb) h.counted (DenseQp.length_withBounds h) h.bounded c).refuses hc with ⟨e, he, -⟩
    obtain ⟨hput, hvariables⟩ := put_of_not_fits hc f idxb
    rw [he, hput, hvariables]
    rfl

/-- What any calls leave: each side as the last call gave it that fitted. -/
theorem runs_withBounds (calls : List (BoundCall α)) :
    runs calls (q.withBounds f idxb) =
      q.withBounds (heldAfter q.dims calls f) (variablesAfter q.dims calls idxb) := by
  induction calls generalizing f idxb with
  | nil => rfl
  | cons c calls ih =>
    rw [runs, List.foldl_cons, leaves_withBounds h, heldAfter_cons, variablesAfter_cons]
    exact ih (Takes.put h c)

end Runs

end BoundCall

/-! ## The law -/

namespace DenseQp

variable {α : Type}

theorem zeros?_eq_some [Zero α] [Stored α] {d : DenseDims} {q : DenseQp α} (h : zeros? d = some q) :
    Word.allocates Word.width d.nb ∧ q.dims = d ∧ q.d = List.replicate d.nc 0 ∧ q.idxb = List.range d.nb := by
  unfold zeros? at h
  rcases Option.ite_none_right_eq_some.mp h with ⟨⟨-, hnb⟩, h⟩
  simp only [Option.bind_eq_bind, Option.bind_eq_some_iff, Option.pure_def, Option.some.injEq] at h
  obtain ⟨H, -, g, -, A, -, b, -, Ct, -, rows, hrows, m, -, rfl⟩ := h
  rcases Option.ite_none_right_eq_some.mp hrows with ⟨-, ⟨⟩⟩
  exact ⟨hnb, rfl, rfl, rfl⟩

/-- A new problem has zeros on every side. -/
theorem withBounds_zeros [Zero α] [Stored α] {d : DenseDims} (hc : d.Counted) {q : DenseQp α} (h : zeros? d = some q) :
    d.Takes (fun which => List.replicate (which.length d) (0 : α)) (List.range d.nb) ∧
      q.withBounds (fun which => List.replicate (which.length d) 0) (List.range d.nb) = q := by
  obtain ⟨-, -, hd, hi⟩ := zeros?_eq_some h
  refine ⟨⟨hc, fun which => List.length_replicate, List.length_range⟩, ?_⟩
  rw [hc.nc_eq] at hd
  simp only [withBounds, Side.length, List.replicate_append_replicate, ← hi]
  rw [show d.nb + d.ng + d.nb + d.ng = 2 * (d.nb + d.ng) by omega, ← hd]

variable [Zero α] [Neg α]

/-- What a new problem holds and answers after the calls. -/
structure BoundsStored (q : DenseQp α) (calls : List (BoundCall α)) : Prop where
  /-- Every side is held as the last call gave it that fitted, or as zeros, the variables
      as the last call gave them or in their order, and all else is as it was. -/
  contents : BoundCall.runs calls q =
    { q with
      d :=
        let side := BoundCall.heldAfter q.dims calls fun which => List.replicate (which.length q.dims) 0
        side .lb ++ side .lg ++ side .ub ++ side .ug
      idxb := BoundCall.variablesAfter q.dims calls (List.range q.dims.nb) }
  /-- A call works in place as on a copy. -/
  whole : ∀ c : BoundCall α, c.leaves (BoundCall.runs calls q) =
    allOrNothing (BoundCall.runs calls q) (c.run (BoundCall.runs calls q))
  accepts : ∀ c : BoundCall α, (c.leaves (BoundCall.runs calls q)).2 = .ok () ↔ c.Fits q.dims
  refuses : ∀ c : BoundCall α, ¬c.Fits q.dims → ∃ e : QpError, e.AboutArrays ∧
    c.leaves (BoundCall.runs calls q) = (BoundCall.runs calls q, .error (.reported e))
  /-- A side reads as it was given. One that was never given reads as zeros, negated for an
      upper side. -/
  reads : ∀ (which : Side) (out : List α), out.length = which.length q.dims →
    (BoundCall.runs calls q).readInto which out =
      ((BoundCall.lastGiven? q.dims calls which).getD (signed which (List.replicate (which.length q.dims) 0)), .ok ())
  spares : ∀ (which : Side) (out : List α), out.length ≠ which.length q.dims → ∃ e : QpError, e.AboutArrays ∧
    (BoundCall.runs calls q).readInto which out = (out, .error (.reported e))

/-- The bounds of a new problem whose rows a word counts are the ones last set, whatever was
    tried in between. -/
theorem bounds_stored [Stored α] (hneg : ∀ x : α, - -x = x) {d : DenseDims} (hrows : 2 * (d.nb + d.ng) < Word.limit)
    {q : DenseQp α} (hnew : zeros? d = some q) (calls : List (BoundCall α)) : q.dims = d ∧ q.BoundsStored calls := by
  obtain ⟨-, rfl, -, -⟩ := zeros?_eq_some hnew
  obtain ⟨htakes, hq⟩ := withBounds_zeros hrows hnew
  have hruns := BoundCall.runs_withBounds htakes calls
  rw [hq] at hruns
  have hafter := BoundCall.takes_after htakes calls
  have hlen := length_withBounds hafter
  have ends := BoundCall.run_ends (q := q.withBounds _ _) hrows hlen hafter.bounded
  refine ⟨rfl, hruns, fun c => BoundCall.leaves_eq c, ?_, ?_, ?_, ?_⟩
  · intro c
    rw [BoundCall.leaves_eq, hruns]
    refine Iff.trans ?_ (ends c).answers
    cases c.run _ <;> simp [allOrNothing]
  · intro c hc
    rcases (ends c).refuses hc with ⟨e, he, habout⟩
    refine ⟨e, habout, ?_⟩
    rw [BoundCall.leaves_eq, hruns, he]
    rfl
  · intro which out hout
    rw [readInto_eq, hruns, hout, get_withBounds hafter, BoundCall.signed_heldAfter hneg]
    rfl
  · intro which out hout
    rcases (get_ends (q := q.withBounds _ _) hrows hlen which out.length).refuses hout with ⟨e, he, habout⟩
    refine ⟨e, habout, ?_⟩
    rw [readInto_eq, hruns, he]
    rfl

/-- Upper bounds of which one is no number, and arrays that do not fit before and after. -/
theorem bounds_stored_refused :
    let calls : List (BoundCall Binary.Double) :=
      [.side .lb [1], .side .ub [FloatingPoint.nan, 1], .bounded [2, 0], .bounded [1, 3], .side .ub [1, 1, 1]]
    ∃ q : DenseQp Binary.Double, zeros? ⟨3, 0, 2, 1⟩ = some q ∧ q.BoundsStored calls ∧
      (BoundCall.runs calls q).d = [0, 0, 0, -FloatingPoint.nan, -1, 0] ∧ (BoundCall.runs calls q).idxb = [2, 0] := by
  intro calls
  have hnew : (zeros? ⟨3, 0, 2, 1⟩ : Option (DenseQp Binary.Double)).isSome = true := by decide
  obtain ⟨q, hq⟩ := Option.isSome_iff_exists.mp hnew
  obtain ⟨hdims, h⟩ := bounds_stored Binary.Double.neg_neg (by decide) hq calls
  refine ⟨q, hq, h, ?_, ?_⟩
  · rw [h.contents, hdims]
    rfl
  · rw [h.contents, hdims]
    rfl

/-- On a new problem with more rows than a word counts, setting the upper bounds has no answer
    even with an array that fits them. -/
theorem set_ub_of_not_counted [Stored α] {d : DenseDims} (hng : d.ng < Word.limit) (hrows : ¬d.Counted) {q : DenseQp α}
    (hnew : zeros? d = some q) {x : List α} (hx : (BoundCall.side .ub x).Fits d) : q.set .ub x = .error .breach := by
  obtain ⟨hnb, rfl, hd, -⟩ := zeros?_eq_some hnew
  have hnb : q.dims.nb * 8 ≤ 0x7fffffffffffffff := of_decide_eq_true hnb
  have hpast : ¬Side.ub.start q.dims + q.dims.nb ≤ q.d.length := by
    simp only [DenseDims.Counted, Word.limit] at hng hrows
    simp only [hd, List.length_replicate, Side.start, Side.offset, DenseDims.nc, Word.wrap, Word.limit]
    omega
  have hcheck : q.checkSide .ub x.length = .error .breach := by
    rw [checkSide, checkLength_eq_ok.mpr (Eq.symm hx)]
    exact if_neg hpast
  rw [set_eq, hcheck]
  rfl

/-- With so many general constraints that a word counts no rows at all, a new problem has
    upper bounds to set, none of them, and nowhere to set them. -/
theorem uncounted_refuses_ub :
    let call : BoundCall Binary.Double := .side .ub []
    ∃ q : DenseQp Binary.Double, zeros? ⟨0, 0, 0, 0x8000000000000000⟩ = some q ∧ call.Fits q.dims ∧
      call.leaves q = (q, .error .breach) := by
  intro call
  refine ⟨⟨⟨0, 0, 0, 0x8000000000000000⟩, ⟨0, 0, []⟩, [], ⟨0, 0, []⟩, [], ⟨0, 0x8000000000000000, []⟩, [], [], []⟩, ?_, ?_, ?_⟩
  all_goals rfl

end DenseQp

end HorizonQp
