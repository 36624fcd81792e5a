import Jkl.Lib.Run

/-! `sync_await`: the thread that calls it, and the coroutine that awaits `a` and then notifies the
thread, on that thread or on another one. The body of the coroutine is taken to reach `a`, `m`, `done`
and `c` themselves: that it does so through a closure that is gone by then is left out. -/
namespace Jkl.SyncAwait

inductive Party where
  | caller
  | coro
deriving DecidableEq, Repr

/-- Where the caller is. -/
inductive Caller where
  /-- In `task.start(s)`: the coroutine runs on this thread. -/
  | starting
  /-- `std::unique_lock lk(m)`. -/
  | locking
  /-- `while(! done)`. -/
  | testing
  /-- In `c.wait(lk)`, without `m`. -/
  | waiting
  /-- Awake in `c.wait(lk)`. -/
  | relocking
  | unlocking
  /-- `a.await_resume()`. -/
  | resuming
  /-- The task, `done`, `c` and `m` are destroyed. -/
  | leaving
  | returned
deriving DecidableEq, Repr

/-- Where the coroutine is. -/
inductive Coro where
  /-- `co_await skip_await_resume{a}`. -/
  | starting
  | suspended
  /-- `std::lock_guard lg{m}`. -/
  | locking
  /-- `done = true`. -/
  | setting
  | unlocking
  /-- `c.notify_one()`. -/
  | notifying
  /-- `final_suspend`. -/
  | ending
  | final
deriving DecidableEq, Repr

structure State where
  caller : Caller
  coro : Coro
  m : Option Party
  done : Bool
  /-- `a` has what `await_resume` gives. -/
  complete : Bool
  /-- A coroutine was destroyed that was not suspended, or `a` was resumed early. -/
  undefined : Bool
deriving DecidableEq, Repr

inductive Event where
  /-- `a` is ready, or resumes the coroutine before it returns to the caller. -/
  | ready
  | suspend
  /-- `a` resumes the coroutine on another thread. -/
  | complete
  /-- The coroutine goes on. -/
  | coro
  | caller
  /-- `c.wait` wakes for no reason. -/
  | wake
deriving DecidableEq, Repr

/-- A step of the caller or of the coroutine, that is no spurious one. -/
def Event.isOwn : Event → Bool
  | .coro => true
  | .caller => true
  | _ => false

namespace State

def init : State := ⟨.starting, .starting, none, false, false, false⟩

def stepCoro (s : State) : Option State :=
  match s.coro with
  | .locking => if s.m = none then some { s with m := some .coro, coro := .setting } else none
  | .setting => some { s with done := true, coro := .unlocking }
  | .unlocking => some { s with m := none, coro := .notifying }
  | .notifying =>
    some { s with caller := if s.caller = .waiting then .relocking else s.caller, coro := .ending }
  | .ending =>
    some { s with caller := if s.caller = .starting then .locking else s.caller, coro := .final }
  | _ => none

def stepCaller (s : State) : Option State :=
  match s.caller with
  | .locking => if s.m = none then some { s with m := some .caller, caller := .testing } else none
  | .testing =>
    if s.done then some { s with caller := .unlocking }
    else some { s with m := none, caller := .waiting }
  | .relocking => if s.m = none then some { s with m := some .caller, caller := .testing } else none
  | .unlocking => some { s with m := none, caller := .resuming }
  | .resuming => some { s with caller := .leaving, undefined := !s.complete }
  | .leaving => some { s with caller := .returned, undefined := s.coro ≠ .final }
  | _ => none

/-- What is undefined goes no further. -/
def step (s : State) (e : Event) : Option State :=
  if s.undefined then none
  else
    match e with
    | .ready =>
      if s.coro = .starting then some { s with coro := .locking, complete := true } else none
    | .suspend =>
      if s.coro = .starting then some { s with coro := .suspended, caller := .locking } else none
    | .complete =>
      if s.coro = .suspended then some { s with coro := .locking, complete := true } else none
    | .coro => s.stepCoro
    | .caller => s.stepCaller
    | .wake => if s.caller = .waiting then some { s with caller := .relocking } else none

def Reachable (s : State) : Prop := ∃ es, Steps.run step init es = some s

/-- The coroutine has set `done`. -/
def isSet : Coro → Bool
  | .unlocking => true
  | .notifying => true
  | .ending => true
  | .final => true
  | _ => false

def callerOwns : Caller → Bool
  | .testing => true
  | .unlocking => true
  | _ => false

def coroOwns : Coro → Bool
  | .setting => true
  | .unlocking => true
  | _ => false

/-- The caller has seen `done`. -/
def hasSeen : Caller → Bool
  | .unlocking => true
  | .resuming => true
  | .leaving => true
  | .returned => true
  | _ => false

attribute [grind =] isSet callerOwns coroOwns hasSeen

structure Inv (s : State) : Prop where
  caller : s.m = some .caller ↔ callerOwns s.caller
  coro : s.m = some .coro ↔ coroOwns s.coro
  done : s.done = isSet s.coro
  complete : s.complete = true ↔ s.coro ≠ .starting ∧ s.coro ≠ .suspended
  started : s.coro = .starting → s.caller = .starting
  inline : s.caller = .starting → s.coro ≠ .suspended ∧ s.coro ≠ .final
  seen : hasSeen s.caller → s.done = true ∧ s.coro ≠ .unlocking
  /-- The notification is still to come. -/
  waiting : s.caller = .waiting → s.coro ≠ .ending ∧ s.coro ≠ .final
  undefined : s.undefined = true →
    s.caller = .returned ∧ (s.coro = .notifying ∨ s.coro = .ending)

variable {s t : State} {e : Event}

theorem undefined_of_step (h : s.step e = some t) : s.undefined = false := by
  by_contra hu
  simp [State.step, hu] at h

theorem Inv.stepCoro (hi : Inv s) (hu : s.undefined = false) (h : s.stepCoro = some t) :
    Inv t := by
  obtain ⟨h1, h2, h3, h4, h5, h6, h7, h8, h9⟩ := hi
  obtain ⟨caller, coro, m, done, complete, undefined⟩ := s
  simp only at hu
  subst hu
  cases coro with
  | locking =>
    simp only [State.stepCoro] at h
    split_ifs at h with hm
    cases h
    constructor <;> grind
  | setting =>
    cases h
    constructor <;> grind
  | unlocking =>
    cases h
    constructor <;> grind
  | notifying =>
    cases h
    constructor <;> grind
  | ending =>
    cases h
    constructor <;> grind
  | _ => cases h

theorem Inv.acquire (hi : Inv s) (hu : s.undefined = false) (hm : s.m = none)
    (hc : s.caller = .locking ∨ s.caller = .relocking) :
    Inv { s with m := some .caller, caller := .testing } := by
  obtain ⟨h1, h2, h3, h4, h5, h6, h7, h8, h9⟩ := hi
  constructor <;> grind

theorem Inv.sleep (hi : Inv s) (hu : s.undefined = false) (hc : s.caller = .testing)
    (hd : ¬s.done) : Inv { s with m := none, caller := .waiting } := by
  obtain ⟨h1, h2, h3, h4, h5, h6, h7, h8, h9⟩ := hi
  constructor <;> grind

theorem Inv.see (hi : Inv s) (hu : s.undefined = false) (hc : s.caller = .testing) (hd : s.done) :
    Inv { s with caller := .unlocking } := by
  obtain ⟨h1, h2, h3, h4, h5, h6, h7, h8, h9⟩ := hi
  constructor <;> grind

theorem Inv.unlock (hi : Inv s) (hu : s.undefined = false) (hc : s.caller = .unlocking) :
    Inv { s with m := none, caller := .resuming } := by
  obtain ⟨h1, h2, h3, h4, h5, h6, h7, h8, h9⟩ := hi
  constructor <;> grind

theorem Inv.resume (hi : Inv s) (hc : s.caller = .resuming) :
    Inv { s with caller := .leaving, undefined := !s.complete } := by
  obtain ⟨h1, h2, h3, h4, h5, h6, h7, h8, h9⟩ := hi
  constructor <;> grind

theorem Inv.leave (hi : Inv s) (hc : s.caller = .leaving) :
    Inv { s with caller := .returned, undefined := s.coro ≠ .final } := by
  obtain ⟨h1, h2, h3, h4, h5, h6, h7, h8, h9⟩ := hi
  constructor <;> grind

theorem Inv.stepCaller (hi : Inv s) (hu : s.undefined = false) (h : s.stepCaller = some t) :
    Inv t := by
  unfold State.stepCaller at h
  cases hc : s.caller with
  | locking =>
    simp only [hc] at h
    split_ifs at h with hm
    cases h
    exact hi.acquire hu hm (.inl hc)
  | testing =>
    simp only [hc] at h
    split_ifs at h with hd
    · cases h
      exact hi.see hu hc hd
    · cases h
      exact hi.sleep hu hc hd
  | relocking =>
    simp only [hc] at h
    split_ifs at h with hm
    cases h
    exact hi.acquire hu hm (.inr hc)
  | unlocking =>
    simp only [hc] at h
    cases h
    exact hi.unlock hu hc
  | resuming =>
    simp only [hc] at h
    cases h
    exact hi.resume hc
  | leaving =>
    simp only [hc] at h
    cases h
    exact hi.leave hc
  | _ => simp [hc] at h

theorem Inv.step (hi : Inv s) (h : s.step e = some t) : Inv t := by
  have hu := undefined_of_step h
  have hinv := hi
  obtain ⟨h1, h2, h3, h4, h5, h6, h7, h8, h9⟩ := hi
  simp only [State.step, hu, Bool.false_eq_true, if_false] at h
  cases e with
  | ready =>
    simp only at h
    split_ifs at h with hc
    cases h
    constructor <;> grind
  | suspend =>
    simp only at h
    split_ifs at h with hc
    cases h
    constructor <;> grind
  | complete =>
    simp only at h
    split_ifs at h with hc
    cases h
    constructor <;> grind
  | coro => exact hinv.stepCoro hu h
  | caller => exact hinv.stepCaller hu h
  | wake =>
    simp only at h
    split_ifs at h with hc
    cases h
    constructor <;> grind

theorem Inv.init : Inv init := by
  constructor <;> simp [State.init, callerOwns, coroOwns, isSet, hasSeen]

theorem Reachable.inv (h : Reachable s) : Inv s := by
  obtain ⟨es, hrun⟩ := h
  exact Steps.invariant_of_step (fun _ _ _ hi ht => hi.step ht) Inv.init hrun

/-! The caller returns. -/

/-- A bound of the steps that the coroutine has left. -/
def coroLeft : Coro → ℕ
  | .starting => 7
  | .suspended => 6
  | .locking => 5
  | .setting => 4
  | .unlocking => 3
  | .notifying => 2
  | .ending => 1
  | .final => 0

/-- Likewise for the caller, who may be awake for nothing once. -/
def callerLeft : Caller → ℕ
  | .starting => 8
  | .locking => 7
  | .testing => 6
  | .waiting => 5
  | .relocking => 7
  | .unlocking => 3
  | .resuming => 2
  | .leaving => 1
  | .returned => 0

def cost (s : State) : ℕ := 4 * coroLeft s.coro + callerLeft s.caller

theorem stepCoro_spends (h : s.stepCoro = some t) : t.cost < s.cost ∧ t.complete = s.complete := by
  obtain ⟨caller, coro, m, done, complete, undefined⟩ := s
  cases coro with
  | locking =>
    simp only [stepCoro] at h
    split_ifs at h with hm
    cases h
    simp [cost, coroLeft]
  | setting =>
    cases h
    simp [cost, coroLeft]
  | unlocking =>
    cases h
    simp [cost, coroLeft]
  | notifying =>
    cases h
    cases caller <;> simp [cost, coroLeft, callerLeft]
  | ending =>
    cases h
    cases caller <;> simp [cost, coroLeft, callerLeft]
  | _ => cases h

theorem stepCaller_spends (h : s.stepCaller = some t) :
    t.cost < s.cost ∧ t.complete = s.complete := by
  obtain ⟨caller, coro, m, done, complete, undefined⟩ := s
  cases caller with
  | locking =>
    simp only [stepCaller] at h
    split_ifs at h with hm
    cases h
    simp [cost, callerLeft]
  | testing =>
    simp only [stepCaller] at h
    split_ifs at h with hd
    · cases h
      simp [cost, callerLeft]
    · cases h
      simp [cost, callerLeft]
  | relocking =>
    simp only [stepCaller] at h
    split_ifs at h with hm
    cases h
    simp [cost, callerLeft]
  | unlocking =>
    cases h
    simp [cost, callerLeft]
  | resuming =>
    cases h
    simp [cost, callerLeft]
  | leaving =>
    cases h
    simp [cost, callerLeft]
  | _ => cases h

theorem stepCaller_coro (h : s.stepCaller = some t) : t.coro = s.coro := by
  unfold stepCaller at h
  split at h <;> grind

theorem step_spends (he : e.isOwn) (h : s.step e = some t) :
    t.cost < s.cost ∧ t.complete = s.complete := by
  simp only [step, undefined_of_step h, Bool.false_eq_true, if_false] at h
  cases e with
  | coro => exact stepCoro_spends h
  | caller => exact stepCaller_spends h
  | _ => cases he

theorem stepCaller_isSome (hm : s.m = none ∨ callerOwns s.caller)
    (hc : s.caller ≠ .starting ∧ s.caller ≠ .waiting ∧ s.caller ≠ .returned) :
    s.stepCaller.isSome := by
  obtain ⟨caller, coro, m, done, complete, undefined⟩ := s
  cases caller with
  | locking =>
    rcases hm with rfl | hm
    · rfl
    · cases hm
  | testing => cases done <;> rfl
  | relocking =>
    rcases hm with rfl | hm
    · rfl
    · cases hm
  | _ => simp_all [stepCaller]

/-- While the caller has not returned, it or the coroutine can go on. -/
theorem Inv.progress (hi : Inv s) (hc : s.complete) (hr : s.caller ≠ .returned) :
    (s.step .coro).isSome ∨ (s.step .caller).isSome := by
  have hu : s.undefined = false := by
    by_contra hu
    exact hr (hi.undefined (by simpa using hu)).1
  -- Who is not the coroutine, and has `m`, is the caller.
  have hm : coroOwns s.coro = false → s.m = none ∨ callerOwns s.caller := by
    intro hcoro
    cases hm : s.m with
    | none => exact .inl rfl
    | some p =>
      cases p with
      | caller => exact .inr (hi.caller.1 hm)
      | coro => simp [hi.coro.1 hm] at hcoro
  simp only [State.step, hu, Bool.false_eq_true, if_false]
  cases hcoro : s.coro with
  | starting => exact absurd hcoro (hi.complete.1 hc).1
  | suspended => exact absurd hcoro (hi.complete.1 hc).2
  | locking =>
    rcases hm (by simp [hcoro, coroOwns]) with hm | hm
    · left
      simp [State.stepCoro, hcoro, hm]
    · right
      apply stepCaller_isSome (.inr hm)
      refine ⟨?_, ?_, hr⟩ <;> intro h <;> simp [h, callerOwns] at hm
  | setting => simp [State.stepCoro, hcoro]
  | unlocking => simp [State.stepCoro, hcoro]
  | notifying => simp [State.stepCoro, hcoro]
  | ending => simp [State.stepCoro, hcoro]
  | final =>
    right
    apply stepCaller_isSome (hm (by simp [hcoro, coroOwns]))
    exact ⟨fun h => (hi.inline h).2 hcoro, fun h => (hi.waiting h).2 hcoro, hr⟩

/-- `sync_await` goes on only after `a` is complete, and it then does return, unless it wakes for
nothing without end: no notification is lost. -/
theorem Reachable.returns (h : Reachable s) :
    (hasSeen s.caller → s.complete) ∧
      (s.complete → ∀ {es t}, (∀ e ∈ es, e.isOwn) → Steps.run step s es = some t →
        es.length ≤ s.cost ∧
          (t.caller ≠ .returned → (t.step .coro).isSome ∨ (t.step .caller).isSome)) := by
  have hi := h.inv
  constructor
  · intro hs
    have hset : isSet s.coro = true := hi.done ▸ (hi.seen hs).1
    rw [hi.complete]
    cases hcoro : s.coro <;> simp [hcoro, isSet] at hset ⊢
  · clear h
    intro hc es t hes hrun
    induction es generalizing s with
    | nil =>
      obtain rfl := Option.some.inj hrun
      exact ⟨Nat.zero_le _, hi.progress hc⟩
    | cons e es ih =>
      obtain ⟨he, hes⟩ := List.forall_mem_cons.1 hes
      obtain ⟨s₁, hstep, hrun⟩ := Option.bind_eq_some_iff.1 hrun
      obtain ⟨hcost, hcomplete⟩ := step_spends he hstep
      obtain ⟨hlen, hgo⟩ := ih (hi.step hstep) (hcomplete.trans hc) hes hrun
      exact ⟨by rw [List.length_cons]; omega, hgo⟩

theorem Reachable.returns_waiting :
    ∃ s, Steps.run step init [.suspend, .caller, .caller, .wake, .caller, .complete] = some s ∧
      s.complete ∧ ((s.step .coro).isSome ∨ (s.step .caller).isSome) := by
  have hrun : ∃ s, Steps.run step init [.suspend, .caller, .caller, .wake, .caller, .complete] =
      some s ∧ s.complete ∧ s.caller = .testing := ⟨_, rfl, rfl, rfl⟩
  obtain ⟨s, hrun, hc, htest⟩ := hrun
  have hnil : ∀ e ∈ ([] : List Event), e.isOwn := by simp
  obtain ⟨-, hgo⟩ := (Reachable.returns ⟨_, hrun⟩).2 hc hnil rfl
  exact ⟨s, hrun, hc, hgo (by simp [htest])⟩

/-! The coroutine may not have ended when the caller destroys it. -/

/-- The coroutine does not leave the caller's thread before its end. -/
structure Inline (s : State) : Prop where
  started : s.coro ≠ .starting ∧ s.coro ≠ .suspended
  inside : s.caller = .starting ∨ s.coro = .final

theorem Inline.step (hin : s.Inline) (h : s.step e = some t) : t.Inline := by
  simp only [State.step, undefined_of_step h, Bool.false_eq_true, if_false] at h
  obtain ⟨⟨h1, h2⟩, h3⟩ := hin
  obtain ⟨caller, coro, m, done, complete, undefined⟩ := s
  cases e with
  | ready => simp [h1] at h
  | suspend => simp [h1] at h
  | complete => simp [h2] at h
  | coro =>
    cases coro with
    | locking =>
      simp only [State.stepCoro] at h
      split_ifs at h
      cases h
      exact ⟨by simp, by simpa using h3⟩
    | setting =>
      cases h
      exact ⟨by simp, by simpa using h3⟩
    | unlocking =>
      cases h
      exact ⟨by simp, by simpa using h3⟩
    | notifying =>
      cases h
      obtain rfl : caller = .starting := by simpa using h3
      exact ⟨by simp, .inl rfl⟩
    | ending =>
      cases h
      exact ⟨by simp, .inr rfl⟩
    | _ => cases h
  | caller =>
    rcases h3 with rfl | rfl
    · cases h
    · have hcoro : t.coro = .final := stepCaller_coro h
      exact ⟨by simp [hcoro], .inr hcoro⟩
  | wake =>
    simp only at h
    split_ifs at h with hw
    cases h
    rcases h3 with rfl | rfl
    · cases hw
    · exact ⟨by simp, .inr rfl⟩

/-- Where `a` resumes the coroutine on another thread, the caller may destroy `c` and the coroutine
while it notifies or ends. This takes no waking for nothing. It does not happen where `a` is ready or
resumes inline, and `a` is never resumed early. -/
theorem undefined_iff_suspend :
    (∀ {e es s}, Steps.run step init (e :: es) = some s → s.undefined → e = .suspend ∧
      s.caller = .returned ∧ (s.coro = .notifying ∨ s.coro = .ending)) ∧
      ∀ coro, coro = .notifying ∨ coro = .ending → ∃ es s, (∀ e ∈ es, e ≠ .wake) ∧
        Steps.run step init (.suspend :: es) = some s ∧ s.undefined ∧ s.coro = coro := by
  constructor
  · intro e es s hrun hu
    have hend := (Reachable.inv ⟨_, hrun⟩).undefined hu
    refine ⟨?_, hend⟩
    obtain ⟨s₁, hstep, hrun⟩ := Option.bind_eq_some_iff.1 hrun
    cases e with
    | suspend => rfl
    | ready =>
      cases hstep
      have hin := Steps.invariant_of_step (I := Inline) (fun _ _ _ hin ht => hin.step ht)
        ⟨by simp, .inl rfl⟩ hrun
      obtain ⟨hcaller, hcoro⟩ := hend
      rcases hin.inside with h | h
      · simp [h] at hcaller
      · simp [h] at hcoro
    | _ => cases hstep
  · rintro coro (rfl | rfl)
    · exact ⟨[.complete, .coro, .coro, .coro, .caller, .caller, .caller, .caller, .caller], _,
        by decide, rfl, rfl, rfl⟩
    · exact ⟨[.caller, .caller, .complete, .coro, .coro, .coro, .coro, .caller, .caller, .caller,
        .caller, .caller], _, by decide, rfl, rfl, rfl⟩

theorem undefined_iff_suspend_notifying : ∃ es s, Steps.run step init (.suspend :: es) = some s ∧
    s.coro = .notifying ∧ s.caller = .returned := by
  obtain ⟨es, s, -, hrun, hu, hcoro⟩ := undefined_iff_suspend.2 .notifying (.inl rfl)
  exact ⟨es, s, hrun, hcoro, (undefined_iff_suspend.1 hrun hu).2.1⟩

end State

end Jkl.SyncAwait
