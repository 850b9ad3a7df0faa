/-
  HorizonQp.Proofs.Outcome — taking a call apart.

  A call that answers answered at every step (`bind_eq_ok`), and a walk over the stages
  answered at each of them (`overStages_eq_ok`, `overStages_eq_some`). One that fails failed
  at some step, in a way that the step fails (`FailsWith`), and a walk at the first stage that
  does (`overStages_eq_error`); a call that answers exactly under a condition and otherwise
  reports what is wrong `AnswersIff` it holds.

  A call that works in place is a list of steps, and what the steps before a failure did
  stays done (`inPlace`). When all checks are in the first step, the call does everything or
  nothing (`inPlace_guarded`, `inPlace_checked`). Steps that all answer are a fold
  (`inTurn_flatMap`).
-/

import HorizonQp.Dims

namespace HorizonQp

/-- What follows a check follows from its passing. -/
theorem bind_unit_eq_ok {ε β : Type} {x : Except ε Unit} {f : Unit → Except ε β} {b : β} :
    (x >>= f) = .ok b ↔ x = .ok () ∧ f () = .ok b := by
  cases x <;> simp [bind, Except.bind]

/-- The failure is a reported error of the kind. -/
def Failure.Reports {ε : Type} (kind : ε → Prop) : Failure ε → Prop
  | .reported e => kind e
  | .breach => False

namespace Attempt

variable {ε δ α β : Type}

theorem ok_bind {a : α} {f : α → Attempt ε β} : ((.ok a : Attempt ε α) >>= f) = f a := rfl

theorem require_some {a : α} : (require (some a) : Attempt ε α) = .ok a := rfl

theorem bind_eq_ok {x : Attempt ε α} {f : α → Attempt ε β} {b : β} :
    (x >>= f) = .ok b ↔ ∃ a, x = .ok a ∧ f a = .ok b := by
  cases x with
  | error e => simp [bind, Except.bind]
  | ok a => simp [bind, Except.bind]

theorem bind_eq_error {x : Attempt ε α} {f : α → Attempt ε β} {failure : Failure ε} :
    (x >>= f) = .error failure ↔ x = .error failure ∨ ∃ a, x = .ok a ∧ f a = .error failure := by
  cases x with
  | error e => simp [bind, Except.bind]
  | ok a => simp [bind, Except.bind]

theorem require_eq_breach {o : Option α} : (require o : Attempt ε α) = .error .breach ↔ o = none := by
  cases o <;> simp [require]

theorem orReport_ne_breach {e : ε} {o : Option α} : orReport e o ≠ .error .breach := by
  cases o <;> simp [orReport]

theorem pure_eq_ok {a b : α} : (pure a : Attempt ε α) = .ok b ↔ a = b := by
  constructor
  · intro h; cases h; rfl
  · rintro rfl; rfl

theorem orReport_eq_ok {e : ε} {o : Option α} {a : α} : orReport e o = .ok a ↔ o = some a := by
  cases o <;> simp [orReport]

theorem widen_eq_ok {f : ε → δ} {x : Attempt ε α} {a : α} : widen f x = .ok a ↔ x = .ok a := by
  rcases x with (_ | _) | _ <;> simp [widen]

theorem widen_eq_breach {f : ε → δ} {x : Attempt ε α} : widen f x = .error .breach ↔ x = .error .breach := by
  rcases x with (_ | _) | _ <;> simp [widen]

theorem ofExcept_eq_ok {x : Except ε α} {a : α} : ofExcept x = .ok a ↔ x = .ok a := by
  cases x <;> simp [ofExcept]

/-- A check has no answer that what follows could depend on. -/
theorem check_eq_ok {x : Except ε Unit} {p : Prop} :
    (∃ a, (ofExcept x : Attempt ε Unit) = .ok a ∧ p) ↔ x = .ok () ∧ p := by
  cases x <;> simp [ofExcept]

/-- What every step of a fold keeps, the fold keeps. -/
theorem foldlM_keeps {ι σ : Type} {f : σ → ι → Attempt ε σ} {P : σ → Prop}
    (hf : ∀ s x s', P s → f s x = .ok s' → P s') {xs : List ι} {s s' : σ} (hs : P s) (h : xs.foldlM f s = .ok s') :
    P s' := by
  induction xs generalizing s with
  | nil =>
    cases h
    exact hs
  | cons x xs ih =>
    rw [List.foldlM_cons, bind_eq_ok] at h
    obtain ⟨t, ht, h⟩ := h
    exact ih (hf s x t hs ht) h

theorem forM_eq_ok {ι : Type} {f : ι → Attempt ε Unit} {xs : List ι} : xs.forM f = .ok () ↔ ∀ x ∈ xs, f x = .ok () := by
  induction xs with
  | nil => exact ⟨fun _ _ hx => absurd hx List.not_mem_nil, fun _ => rfl⟩
  | cons x xs ih =>
    show (f x >>= fun _ => xs.forM f) = .ok () ↔ _
    rw [bind_eq_ok, List.forall_mem_cons, ← ih]
    constructor
    · intro ⟨u, hx, h⟩
      exact ⟨hx, h⟩
    · intro ⟨hx, h⟩
      exact ⟨(), hx, h⟩

/-- Every failure of the call is of the kind `P`. -/
def FailsWith (P : Failure ε → Prop) (x : Attempt ε α) : Prop := ∀ failure, x = .error failure → P failure

namespace FailsWith

variable {P : Failure ε → Prop}

theorem ok (a : α) : FailsWith P (.ok a) := by
  intro failure h
  cases h

theorem error {failure : Failure ε} (h : P failure) : FailsWith P (.error failure : Attempt ε α) := by
  intro failure' h'
  cases h'
  exact h

theorem orReport {e : ε} (he : P (.reported e)) (o : Option α) : FailsWith P (Attempt.orReport e o) := by
  cases o with
  | none => exact error he
  | some a => exact ok a

theorem ofExcept (hP : ∀ e, P (.reported e)) (x : Except ε α) : FailsWith P (Attempt.ofExcept x) := by
  cases x with
  | error e => exact error (hP e)
  | ok a => exact ok a

theorem ofCheck {x : Except ε α} (hx : ∀ e, x = .error e → P (.reported e)) : FailsWith P (Attempt.ofExcept x) := by
  cases x with
  | error e => exact error (hx e rfl)
  | ok a => exact ok a

theorem ofChecks {x : Except ε α} {f : α → Except ε β} (hx : FailsWith P (Attempt.ofExcept x))
    (hf : ∀ a, FailsWith P (Attempt.ofExcept (f a))) : FailsWith P (Attempt.ofExcept (x >>= f)) := by
  cases x with
  | error e => exact error (hx _ rfl)
  | ok a => exact hf a

theorem bind {x : Attempt ε α} {f : α → Attempt ε β} (hx : FailsWith P x) (hf : ∀ a, x = .ok a → FailsWith P (f a)) :
    FailsWith P (x >>= f) := by
  cases x with
  | error failure => exact error (hx failure rfl)
  | ok a => exact hf a rfl

theorem overStages {f : Nat → Attempt ε α} {first count : Nat} (hf : ∀ i < count, FailsWith P (f (first + i))) :
    FailsWith P (overStages f first count) := by
  induction count generalizing first with
  | zero => exact ok []
  | succ count ih =>
    refine bind (hf 0 (Nat.succ_pos count)) fun a _ => bind (ih fun i hi => ?_) fun as _ => ok (a :: as)
    rw [show first + 1 + i = first + (i + 1) by omega]
    exact hf (i + 1) (by omega)

theorem forM {ι : Type} {f : ι → Attempt ε Unit} {xs : List ι} (hf : ∀ x ∈ xs, FailsWith P (f x)) :
    FailsWith P (xs.forM f) := by
  induction xs with
  | nil => exact ok ()
  | cons x xs ih =>
    exact bind (hf x List.mem_cons_self) fun _ _ => ih fun y hy => hf y (List.mem_cons_of_mem _ hy)

theorem require {o : Option α} (ho : ∃ a, o = some a) : FailsWith P (Attempt.require o) := by
  rcases ho with ⟨a, rfl⟩
  exact ok a

/-- A call that does not answer has such a failure. -/
theorem exists_error {x : Attempt ε α} (hx : FailsWith P x) (h : ∀ a, x ≠ .ok a) : ∃ failure, x = .error failure ∧ P failure := by
  cases x with
  | error failure => exact ⟨failure, rfl, hx failure rfl⟩
  | ok a => exact absurd rfl (h a)

end FailsWith

/-- The call answers exactly when `p` holds, and otherwise reports an error of the kind. -/
structure AnswersIff (p : Prop) (kind : ε → Prop) (x : Attempt ε α) : Prop where
  answers : (∃ a, x = .ok a) ↔ p
  fails : x.FailsWith (Failure.Reports kind)

theorem AnswersIff.refuses {p : Prop} {kind : ε → Prop} {x : Attempt ε α} (h : x.AnswersIff p kind) (hp : ¬p) :
    ∃ e, x = .error (.reported e) ∧ kind e := by
  rcases h.fails.exists_error fun a ha => hp (h.answers.mp ⟨a, ha⟩) with ⟨failure, hx, hk⟩
  cases failure with
  | reported e => exact ⟨e, hx, hk⟩
  | breach => exact hk.elim

/-- What comes after the call and cannot fail is no matter. -/
theorem AnswersIff.map {p : Prop} {kind : ε → Prop} {x : Attempt ε α} (h : x.AnswersIff p kind) (f : α → β) :
    (x >>= fun a => pure (f a)).AnswersIff p kind := by
  constructor
  · rw [← h.answers]
    simp only [bind_eq_ok, pure_eq_ok]
    constructor
    · rintro ⟨_, a, ha, -⟩
      exact ⟨a, ha⟩
    · rintro ⟨a, ha⟩
      exact ⟨f a, a, ha, rfl⟩
  · exact .bind h.fails fun a _ => .ok (f a)

theorem fail_ne_ok {e : ε} {a : α} : (fail e : Attempt ε α) ≠ .ok a := by simp [fail]

theorem breach_ne_ok {a : α} : (breach : Attempt ε α) ≠ .ok a := by simp [breach]

end Attempt

/-! ## Checks of arrays -/

/-- The error is about the length of an array, or about an entry of one. -/
def QpError.AboutArrays : QpError → Prop
  | .incompatibleDimension _ _ => True
  | .indexOutOfRange _ _ => True
  | _ => False

theorem checkLength_fails {kind : QpError → Prop} {expected found : Nat}
    (h : kind (.incompatibleDimension expected found)) :
    (Attempt.ofExcept (checkLength expected found)).FailsWith (Failure.Reports kind) := by
  refine .ofCheck fun e he => ?_
  unfold checkLength at he
  split at he
  · cases he
  · cases he
    exact h

theorem checkIndices_fails {kind : QpError → Prop} {idx : List Nat} {limit : Nat}
    (h : ∀ k ∈ idx, limit ≤ k → kind (.indexOutOfRange k limit)) :
    (Attempt.ofExcept (checkIndices idx limit)).FailsWith (Failure.Reports kind) := by
  refine .ofCheck fun e he => ?_
  unfold checkIndices at he
  split at he
  case h_1 k hk =>
    cases he
    have hle := List.find?_some hk
    simp only [decide_eq_true_eq] at hle
    exact h k (List.mem_of_find?_eq_some hk) hle
  case h_2 => cases he

/-! ## Working in place -/

section InPlace

variable {ε σ : Type}

/-- What steps that work on `s` in place leave of it, and how they end: a step that fails is
    the last, and what the steps before it did stays done. -/
def inPlace : List (σ → Attempt ε σ) → σ → σ × Attempt ε Unit
  | [], s => (s, .ok ())
  | step :: steps, s =>
    match step s with
    | .ok s' => inPlace steps s'
    | .error failure => (s, .error failure)

/-- What a call leaves of `s` that does everything or nothing. -/
def allOrNothing (s : σ) : Attempt ε σ → σ × Attempt ε Unit
  | .ok s' => (s', .ok ())
  | .error failure => (s, .error failure)

/-- The steps one after the other, on copies. -/
def inTurn (steps : List (σ → Attempt ε σ)) (s : σ) : Attempt ε σ := steps.foldlM (fun s step => step s) s

theorem inTurn_cons {step : σ → Attempt ε σ} {steps : List (σ → Attempt ε σ)} {s : σ} :
    inTurn (step :: steps) s = step s >>= inTurn steps := List.foldlM_cons ..

theorem inTurn_append {steps steps' : List (σ → Attempt ε σ)} {s : σ} :
    inTurn (steps ++ steps') s = inTurn steps s >>= inTurn steps' := List.foldlM_append ..

theorem inTurn_single (step : σ → Attempt ε σ) (s : σ) : inTurn [step] s = step s := by
  rw [inTurn_cons]
  cases step s <;> rfl

/-- Steps that answer as `f` says are a fold. -/
theorem inTurn_flatMap {ι : Type} {P : σ → Prop} {steps : ι → List (σ → Attempt ε σ)} {f : σ → ι → σ} {xs : List ι}
    (h : ∀ x ∈ xs, ∀ s, P s → inTurn (steps x) s = .ok (f s x) ∧ P (f s x)) {s : σ} (hs : P s) :
    inTurn (xs.flatMap steps) s = .ok (xs.foldl f s) := by
  induction xs generalizing s with
  | nil => rfl
  | cons x xs ih =>
    obtain ⟨hx, hP⟩ := h x List.mem_cons_self s hs
    rw [List.flatMap_cons, inTurn_append, hx, Attempt.ok_bind, List.foldl_cons]
    exact ih (fun x' hx' => h x' (List.mem_cons_of_mem _ hx')) hP

theorem inTurn_map {ι : Type} {P : σ → Prop} {step : ι → σ → Attempt ε σ} {f : σ → ι → σ} {xs : List ι}
    (h : ∀ x ∈ xs, ∀ s, P s → step x s = .ok (f s x) ∧ P (f s x)) {s : σ} (hs : P s) :
    inTurn (xs.map step) s = .ok (xs.foldl f s) := by
  rw [List.map_eq_flatMap]
  exact inTurn_flatMap (fun x hx s hs => by rw [inTurn_single]; exact h x hx s hs) hs

theorem inPlace_of_ok {steps : List (σ → Attempt ε σ)} {s s' : σ} (h : inTurn steps s = .ok s') :
    inPlace steps s = (s', .ok ()) := by
  induction steps generalizing s with
  | nil =>
    cases h
    rfl
  | cons step steps ih =>
    rw [inTurn_cons, Attempt.bind_eq_ok] at h
    rcases h with ⟨t, ht, h⟩
    rw [inPlace, ht]
    exact ih h

/-- Steps end in place as they do on copies. -/
theorem inPlace_ending {steps : List (σ → Attempt ε σ)} {s : σ} :
    (inPlace steps s).2 = (inTurn steps s).map fun _ => () := by
  induction steps generalizing s with
  | nil => rfl
  | cons step steps ih =>
    rw [inTurn_cons, inPlace]
    cases step s with
    | error failure => rfl
    | ok s' => exact ih

/-- Nothing comes after steps that fail. -/
theorem inPlace_append_of_error {steps steps' : List (σ → Attempt ε σ)} {s : σ} {failure : Failure ε}
    (h : inTurn steps s = .error failure) : inPlace (steps ++ steps') s = inPlace steps s := by
  induction steps generalizing s with
  | nil => cases h
  | cons step steps ih =>
    rw [inTurn_cons] at h
    rw [List.cons_append, inPlace, inPlace]
    cases hstep : step s with
    | error _ => rfl
    | ok s' =>
      rw [hstep] at h
      exact ih h

/-- What every step keeps holds of what the steps leave, however they end. -/
theorem inPlace_keeps {P : σ → Prop} {steps : List (σ → Attempt ε σ)}
    (h : ∀ step ∈ steps, ∀ s s', P s → step s = .ok s' → P s') {s : σ} (hs : P s) : P (inPlace steps s).1 := by
  induction steps generalizing s with
  | nil => exact hs
  | cons step steps ih =>
    rw [inPlace]
    cases hstep : step s with
    | error failure => exact hs
    | ok s' =>
      exact ih (fun step' h' => h step' (List.mem_cons_of_mem _ h')) (h step List.mem_cons_self s s' hs hstep)

/-- A single step does everything or nothing. -/
theorem inPlace_single (step : σ → Attempt ε σ) (s : σ) : inPlace [step] s = allOrNothing s (step s) := by
  rw [inPlace]
  cases step s <;> rfl

/-- Steps that cannot fail once the first went through do everything or nothing. -/
theorem inPlace_guarded {guard : σ → Attempt ε σ} {steps : List (σ → Attempt ε σ)} {s : σ}
    (h : ∀ t, guard s = .ok t → ∃ s', inTurn steps t = .ok s') :
    inPlace (guard :: steps) s = allOrNothing s (inTurn (guard :: steps) s) := by
  cases hg : guard s with
  | error failure =>
    rw [inTurn_cons, inPlace, hg]
    rfl
  | ok t =>
    rcases h t hg with ⟨s', hs⟩
    have hall : inTurn (guard :: steps) s = .ok s' := by rw [inTurn_cons, hg, Attempt.ok_bind, hs]
    rw [hall]
    exact inPlace_of_ok hall

/-- Steps behind a check that answer once it passes do everything or nothing. -/
theorem inPlace_checked (check : σ → Attempt ε Unit) {steps : List (σ → Attempt ε σ)} {s s' : σ}
    (h : check s = .ok () → inTurn steps s = .ok s') :
    inPlace ((fun s => check s >>= fun _ => pure s) :: steps) s = allOrNothing s (check s >>= fun _ => pure s') := by
  rw [inPlace]
  cases hc : check s with
  | error failure => rfl
  | ok u => exact inPlace_of_ok (h hc)

end InPlace

/-! ## Walks over lists -/

/-- When every answer is that of `g`, a walk that answers is a map. -/
theorem mapM_eq_map {α β : Type} {f : α → Option β} {g : α → β} (hg : ∀ x y, f x = some y → y = g x) {xs : List α}
    {ys : List β} (h : xs.mapM f = some ys) : ys = xs.map g := by
  induction xs generalizing ys with
  | nil =>
    cases h
    rfl
  | cons x xs ih =>
    rw [List.mapM_cons] at h
    rcases Option.bind_eq_some_iff.mp h with ⟨y, hy, h⟩
    rcases Option.bind_eq_some_iff.mp h with ⟨ys', hys, h⟩
    cases h
    rw [List.map_cons, hg x y hy, ih hys]

/-- A walk answers when it does at every entry. -/
theorem mapM_of_forall {α β : Type} {f : α → Option β} {g : α → β} {xs : List α} (h : ∀ x ∈ xs, f x = some (g x)) :
    xs.mapM f = some (xs.map g) := by
  induction xs with
  | nil => rfl
  | cons x xs ih =>
    rw [List.mapM_cons, h x (List.mem_cons_self ..), ih fun y hy => h y (List.mem_cons_of_mem _ hy)]
    rfl

/-! ## Walks over the stages -/

section Walks

variable {α : Type} {first count : Nat}

/-- A walk answers with the answers of its stages, for any notion of answer that a sequence
    of steps passes on. -/
theorem overStages_answers {m : Type → Type} [Monad m] (Answers : ∀ {β : Type}, m β → β → Prop)
    (hpure : ∀ {β : Type} {a b : β}, Answers (pure a : m β) b ↔ a = b)
    (hbind : ∀ {β γ : Type} {x : m β} {f : β → m γ} {b : γ}, Answers (x >>= f) b ↔ ∃ a, Answers x a ∧ Answers (f a) b)
    {f : Nat → m α} {xs : List α} :
    Answers (overStages f first count) xs ↔
      xs.length = count ∧ ∀ i < count, ∃ x, xs[i]? = some x ∧ Answers (f (first + i)) x := by
  induction count generalizing first xs with
  | zero =>
    rw [overStages, hpure]
    constructor
    · intro h
      rw [← h]
      exact ⟨rfl, fun i hi => absurd hi (Nat.not_lt_zero i)⟩
    · intro h
      exact (List.eq_nil_of_length_eq_zero h.1).symm
  | succ count ih =>
    have hnext (i : Nat) : first + 1 + i = first + (i + 1) := by omega
    simp only [overStages, hbind, hpure, ih, hnext]
    constructor
    · intro h
      rcases h with ⟨a, ha, as, ⟨hl, has⟩, rfl⟩
      refine ⟨by rw [List.length_cons, hl], fun i hi => ?_⟩
      cases i with
      | zero => exact ⟨a, rfl, ha⟩
      | succ i => exact has i (Nat.lt_of_succ_lt_succ hi)
    · intro h
      rcases h with ⟨hl, hx⟩
      cases xs with
      | nil => cases hl
      | cons a as =>
        rcases hx 0 (Nat.succ_pos count) with ⟨b, hb, hf⟩
        cases hb
        exact ⟨a, hf, as, ⟨Nat.succ.inj hl, fun i hi => hx (i + 1) (Nat.succ_lt_succ hi)⟩, rfl⟩

theorem overStages_eq_some {f : Nat → Option α} {xs : List α} :
    overStages f first count = some xs ↔
      xs.length = count ∧ ∀ i < count, ∃ x, xs[i]? = some x ∧ f (first + i) = some x :=
  overStages_answers (m := Option) (fun x a => x = some a) Option.some_inj Option.bind_eq_some_iff

theorem overStages_eq_ok {ε : Type} {f : Nat → Attempt ε α} {xs : List α} :
    overStages f first count = .ok xs ↔
      xs.length = count ∧ ∀ i < count, ∃ x, xs[i]? = some x ∧ f (first + i) = .ok x :=
  overStages_answers (m := Attempt ε) (fun x a => x = .ok a) Attempt.pure_eq_ok Attempt.bind_eq_ok

/-- A walk fails as the first stage does that fails. -/
theorem overStages_eq_error {ε : Type} {f : Nat → Attempt ε α} {failure : Failure ε} :
    overStages f first count = .error failure ↔
      ∃ i < count, f (first + i) = .error failure ∧ ∀ j < i, ∃ a, f (first + j) = .ok a := by
  induction count generalizing first with
  | zero => exact ⟨nofun, fun ⟨i, hi, _⟩ => absurd hi (Nat.not_lt_zero i)⟩
  | succ count ih =>
    have hnext (i : Nat) : first + 1 + i = first + (i + 1) := by omega
    have hpure (x : Attempt ε (List α)) (a : α) : (∃ as, x = .ok as ∧ (pure (a :: as) : Attempt ε (List α)) = .error failure) ↔ False :=
      ⟨nofun, False.elim⟩
    simp only [overStages, Attempt.bind_eq_error, hpure, or_false, ih, hnext]
    constructor
    · intro h
      rcases h with hf | ⟨a, ha, i, hi, hf, hbefore⟩
      · exact ⟨0, Nat.succ_pos count, hf, fun j hj => absurd hj (Nat.not_lt_zero j)⟩
      · refine ⟨i + 1, Nat.succ_lt_succ hi, hf, fun j hj => ?_⟩
        cases j with
        | zero => exact ⟨a, ha⟩
        | succ j => exact hbefore j (Nat.lt_of_succ_lt_succ hj)
    · intro h
      rcases h with ⟨i, hi, hf, hbefore⟩
      cases i with
      | zero => exact Or.inl hf
      | succ i =>
        rcases hbefore 0 (Nat.succ_pos i) with ⟨a, ha⟩
        exact Or.inr ⟨a, ha, i, Nat.lt_of_succ_lt_succ hi, hf, fun j hj => hbefore (j + 1) (Nat.succ_lt_succ hj)⟩

/-- What a walk collects, when every stage gives the value of `g`. -/
theorem overStages_map {ε : Type} {f : Nat → Attempt ε α} {g : Nat → α} {xs : List α}
    (h : overStages f 0 count = .ok xs) (hg : ∀ i < count, ∀ x, f i = .ok x → x = g i) :
    xs = (List.range count).map g := by
  obtain ⟨hl, hx⟩ := overStages_eq_ok.mp h
  apply List.ext_getElem?
  intro i
  by_cases hi : i < count
  · obtain ⟨x, hx, hf⟩ := hx i hi
    rw [Nat.zero_add] at hf
    rw [hx, hg i hi x hf, List.getElem?_map, List.getElem?_range hi, Option.map_some]
  · rw [List.getElem?_eq_none (by omega), List.getElem?_eq_none (by simp; omega)]

theorem overStages_some_map {f : Nat → Option α} {g : Nat → α} (hg : ∀ i < count, f i = some (g i)) :
    overStages f 0 count = some ((List.range count).map g) := by
  rw [overStages_eq_some]
  refine ⟨by rw [List.length_map, List.length_range], fun i hi => ⟨g i, ?_, ?_⟩⟩
  · rw [List.getElem?_map, List.getElem?_range hi, Option.map_some]
  · rw [Nat.zero_add, hg i hi]

end Walks

end HorizonQp
