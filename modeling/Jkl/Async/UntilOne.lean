import Jkl.Lib.Run
import Mathlib.Logic.Function.Basic

/-! `until_one`: a coroutine that starts a task for every awaiter and is resumed by one of them.
The completions interleave in any way, and may begin while `_start_tasks` still starts tasks.
`R` is what a `std::any` holds, `E` what an `std::exception_ptr` points to. -/
namespace Jkl.Async.UntilOne

variable {R E : Type*}

/-- Where `_untill_one_coro<I>` is: not started, in `co_await awaiter`, between the exchange that
it was the first to make and `move_back_ucoro_and_resume`, at its end. -/
inductive Phase where
  | fresh
  | awaiting
  | first
  | finished
deriving DecidableEq, Repr

/-- How `co_await until_one(..)` comes back: with an `std::any`, empty for a void awaiter, or with
the exception that is rethrown. -/
inductive Resumed (R E : Type*) where
  | returned (r : Option R)
  | threw (e : Option E)
deriving DecidableEq, Repr

/-- The tasks, `data_t`, and how the coroutine was resumed so far. -/
structure State (R E : Type*) where
  phase : ℕ → Phase
  started : ℕ
  finished : Bool
  idx : Option ℕ
  results : ℕ → Option R
  eps : ℕ → Option E
  resumed : List (Resumed R E)

/-- At `_start_tasks`. -/
def State.init : State R E :=
  { phase := fun _ => .fresh, started := 0, finished := false, idx := none
    results := fun _ => none, eps := fun _ => none, resumed := [] }

/-- `succeed` is what follows a `co_await awaiter` that returns, up to the exchange of the flag:
the store before it goes to a slot that nobody else looks at. -/
inductive Event (R E : Type*) where
  | start
  | succeed (i : ℕ) (r : Option R)
  | fail (i : ℕ) (e : E)
  | resume (i : ℕ)

namespace State

def setPhase (s : State R E) (i : ℕ) (p : Phase) : State R E :=
  { s with phase := Function.update s.phase i p }

/-- `.start()` of the next task. -/
def start (s : State R E) : State R E :=
  { s.setPhase s.started (if s.finished then .finished else .awaiting) with
    started := s.started + 1 }

def succeed (s : State R E) (i : ℕ) (r : Option R) : State R E :=
  { s.setPhase i (if s.finished then .finished else .first) with
    results := Function.update s.results i r, finished := true }

def fail (s : State R E) (i : ℕ) (e : E) : State R E :=
  { s.setPhase i .finished with eps := Function.update s.eps i (some e) }

/-- `await_resume`. -/
def awaitResume (s : State R E) : Resumed R E :=
  match s.idx with
  | none => .threw (s.eps 0)
  | some i => .returned (s.results i)

/-- `d->idx = I` and the resumption of the coroutine. -/
def resume (s : State R E) (i : ℕ) : State R E :=
  let s := { s.setPhase i .finished with idx := some i }
  { s with resumed := s.resumed ++ [s.awaitResume] }

end State

/-- A step of `until_one` over `n` awaiters. -/
def step (n : ℕ) (s : State R E) : Event R E → Option (State R E)
  | .start => if s.started < n then some s.start else none
  | .succeed i r => if s.phase i = .awaiting then some (s.succeed i r) else none
  | .fail i e => if s.phase i = .awaiting then some (s.fail i e) else none
  | .resume i => if s.phase i = .first then some (s.resume i) else none

/-- The first awaiter that completed successfully, with its result. -/
def firstSuccess : List (Event R E) → Option (ℕ × Option R)
  | [] => none
  | .succeed i r :: _ => some (i, r)
  | _ :: es => firstSuccess es

section Invariants

/-- No task has completed successfully. -/
structure Open (s : State R E) : Prop where
  finished : s.finished = false
  noFirst : ∀ i, s.phase i ≠ .first
  resumed : s.resumed = []

/-- Task `i` was the first to complete, with `r`. -/
structure Won (i : ℕ) (r : Option R) (s : State R E) : Prop where
  finished : s.finished = true
  result : s.results i = r
  onlyFirst : ∀ j, s.phase j = .first → j = i
  resumed : s.phase i = .first ∧ s.resumed = [] ∨ s.phase i = .finished ∧ s.resumed = [.returned r]
  started : i < s.started

/-- A task that was not started yet has done nothing. -/
def Fresh (s : State R E) : Prop := ∀ i, s.started ≤ i → s.phase i = .fresh

variable {n : ℕ} {s t : State R E} {i j : ℕ} {r : Option R}

theorem lt_started (hf : Fresh s) (h : s.phase i ≠ .fresh) : i < s.started := by
  by_contra hle
  exact h (hf i (by omega))

theorem Fresh.setPhase {p : Phase} (hf : Fresh s) (h : s.phase i ≠ .fresh) :
    Fresh (s.setPhase i p) := by
  intro j (hj : s.started ≤ j)
  have hi : i < s.started := lt_started hf h
  have hne : j ≠ i := by
    rintro rfl
    omega
  simpa [State.setPhase, Function.update_of_ne hne] using hf j hj

theorem Fresh.step (hf : Fresh s) {e : Event R E} (h : step n s e = some t) : Fresh t := by
  cases e with
  | start =>
    simp only [UntilOne.step, Option.ite_none_right_eq_some, Option.some.injEq] at h
    obtain ⟨-, rfl⟩ := h
    intro j hj
    have hlt : s.started < j := hj
    have hne : j ≠ s.started := by omega
    simpa [State.start, State.setPhase, Function.update_of_ne hne] using hf j (by omega)
  | succeed i r =>
    simp only [UntilOne.step, Option.ite_none_right_eq_some, Option.some.injEq] at h
    obtain ⟨hi, rfl⟩ := h
    exact hf.setPhase (by rw [hi]; decide)
  | fail i e =>
    simp only [UntilOne.step, Option.ite_none_right_eq_some, Option.some.injEq] at h
    obtain ⟨hi, rfl⟩ := h
    exact hf.setPhase (by rw [hi]; decide)
  | resume i =>
    simp only [UntilOne.step, Option.ite_none_right_eq_some, Option.some.injEq] at h
    obtain ⟨hi, rfl⟩ := h
    exact hf.setPhase (by rw [hi]; decide)

/-- Before the first success nothing happens to the coroutine. -/
theorem Open.step (hs : Open s) {e : Event R E} (h : step n s e = some t)
    (he : ∀ i r, e ≠ .succeed i r) : Open t := by
  cases e with
  | start =>
    simp only [UntilOne.step, Option.ite_none_right_eq_some, Option.some.injEq] at h
    obtain ⟨-, rfl⟩ := h
    refine ⟨hs.finished, fun j => ?_, hs.resumed⟩
    by_cases hj : j = s.started
    · subst hj
      simp [State.start, State.setPhase, hs.finished]
    · simpa [State.start, State.setPhase, Function.update_of_ne hj] using hs.noFirst j
  | succeed i r => exact absurd rfl (he i r)
  | fail i e =>
    simp only [UntilOne.step, Option.ite_none_right_eq_some, Option.some.injEq] at h
    obtain ⟨-, rfl⟩ := h
    refine ⟨hs.finished, fun j => ?_, hs.resumed⟩
    by_cases hj : j = i
    · subst hj
      simp [State.fail, State.setPhase]
    · simpa [State.fail, State.setPhase, Function.update_of_ne hj] using hs.noFirst j
  | resume i =>
    simp only [UntilOne.step, Option.ite_none_right_eq_some] at h
    exact absurd h.1 (hs.noFirst i)

/-- The first success wins the exchange of the flag. -/
theorem Open.succeed (hs : Open s) (hf : Fresh s) (h : UntilOne.step n s (.succeed i r) = some t) :
    Won i r t := by
  simp only [UntilOne.step, Option.ite_none_right_eq_some, Option.some.injEq] at h
  obtain ⟨hi, rfl⟩ := h
  have hphase : (s.succeed i r).phase i = .first := by
    simp [State.succeed, State.setPhase, hs.finished]
  refine ⟨rfl, by simp [State.succeed], fun j hj => ?_, Or.inl ⟨hphase, hs.resumed⟩, ?_⟩
  · by_contra hne
    apply hs.noFirst j
    simpa [State.succeed, State.setPhase, Function.update_of_ne hne] using hj
  · have hlt : i < s.started := lt_started hf (by rw [hi]; decide)
    exact hlt

/-- A change of another task keeps the winner. -/
theorem Won.keep (hs : Won i r s) (hphase : t.phase i = s.phase i) (hresult : t.results i = s.results i)
    (hfirst : ∀ j, t.phase j = .first → s.phase j = .first) (hfin : t.finished = true)
    (hstarted : s.started ≤ t.started) (hres : t.resumed = s.resumed) : Won i r t := by
  refine ⟨hfin, hresult.trans hs.result, fun j hj => hs.onlyFirst j (hfirst j hj), ?_,
    Nat.lt_of_lt_of_le hs.started hstarted⟩
  rw [hphase, hres]
  exact hs.resumed

theorem Won.ne_of_awaiting (hs : Won i r s) (hj : s.phase j = .awaiting) : i ≠ j := by
  rintro rfl
  rcases hs.resumed with ⟨hi, -⟩ | ⟨hi, -⟩ <;> rw [hi] at hj <;> cases hj

theorem first_of_update {p : Phase} (hp : p ≠ .first)
    (h : Function.update s.phase i p j = .first) : s.phase j = .first := by
  by_cases hj : j = i
  · subst hj
    rw [Function.update_self] at h
    exact absurd h hp
  · rwa [Function.update_of_ne hj] at h

/-- The winner stays the winner, and only its own task resumes the coroutine. -/
theorem Won.step (hs : Won i r s) {e : Event R E} (h : step n s e = some t) : Won i r t := by
  cases e with
  | start =>
    simp only [UntilOne.step, Option.ite_none_right_eq_some, Option.some.injEq] at h
    obtain ⟨-, rfl⟩ := h
    have hne : i ≠ s.started := Nat.ne_of_lt hs.started
    apply hs.keep
    · exact Function.update_of_ne hne _ _
    · rfl
    · intro j hj
      exact first_of_update (by rw [hs.finished]; decide) hj
    · exact hs.finished
    · exact Nat.le_succ _
    · rfl
  | succeed j r' =>
    simp only [UntilOne.step, Option.ite_none_right_eq_some, Option.some.injEq] at h
    obtain ⟨hj, rfl⟩ := h
    have hne : i ≠ j := hs.ne_of_awaiting hj
    apply hs.keep
    · exact Function.update_of_ne hne _ _
    · exact Function.update_of_ne hne _ _
    · intro k hk
      exact first_of_update (by rw [hs.finished]; decide) hk
    · rfl
    · exact Nat.le_refl _
    · rfl
  | fail j e =>
    simp only [UntilOne.step, Option.ite_none_right_eq_some, Option.some.injEq] at h
    obtain ⟨hj, rfl⟩ := h
    have hne : i ≠ j := hs.ne_of_awaiting hj
    apply hs.keep
    · exact Function.update_of_ne hne _ _
    · rfl
    · intro k hk
      exact first_of_update (by decide) hk
    · exact hs.finished
    · exact Nat.le_refl _
    · rfl
  | resume j =>
    simp only [UntilOne.step, Option.ite_none_right_eq_some, Option.some.injEq] at h
    obtain ⟨hj, rfl⟩ := h
    obtain rfl : j = i := hs.onlyFirst j hj
    have hnone : s.resumed = [] := by
      rcases hs.resumed with ⟨-, hres⟩ | ⟨hfin, -⟩
      · exact hres
      · rw [hfin] at hj
        cases hj
    refine ⟨hs.finished, hs.result, fun k hk => ?_, Or.inr ⟨Function.update_self .., ?_⟩, hs.started⟩
    · exact hs.onlyFirst k (first_of_update (by decide) hk)
    · simp [State.resume, State.setPhase, State.awaitResume, hnone, hs.result]

theorem Won.run (hs : Won i r s) {es : List (Event R E)} (h : Steps.run (UntilOne.step n) s es = some t) :
    Won i r t :=
  Steps.invariant_of_step (fun _ _ _ hs h => Won.step hs h) hs h

/-- Where a run leads is told by its first success. -/
theorem Open.run (hs : Open s) (hf : Fresh s) {es : List (Event R E)}
    (h : Steps.run (UntilOne.step n) s es = some t) :
    match firstSuccess es with
    | none => Open t
    | some (i, r) => Won i r t := by
  induction es generalizing s with
  | nil =>
    obtain rfl : s = t := Option.some.inj h
    exact hs
  | cons e es ih =>
    obtain ⟨v, hv, hrun⟩ := Option.bind_eq_some_iff.1 h
    cases e with
    | succeed i r => exact (hs.succeed hf hv).run hrun
    | start => exact ih (hs.step hv (by simp)) (hf.step hv) hrun
    | fail i e => exact ih (hs.step hv (by simp)) (hf.step hv) hrun
    | resume i => exact ih (hs.step hv (by simp)) (hf.step hv) hrun

end Invariants

end Jkl.Async.UntilOne
