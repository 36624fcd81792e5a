import Jkl.Async.TaskRuns

/-! What tasks do: no step fails, one coroutine of a task is active, and a task that is done has
done what its body does in direct style. -/
namespace Jkl.Task

open CallStack (Conf Eval)

variable {σ V E R : Type} {P : Program σ V E R} {s s' : State σ V E R} {t c d : CoroId}
  {co : Coro σ V E R} {src : Option SourceId} {ps live : List CoroId}
  {ks : List (Outcome V E → σ)} {pr pr' : Promise V E} {conf : Conf σ (Outcome V E)}
  {b : σ} {e : Event σ R} {es : List (Event σ R)} {f : Fault}

/-! A program: its coroutine `0` awaits `1`, which gives what it is resumed with. -/

def echo : Program ℕ ℕ Empty ℕ where
  act
    | 0 => .coAwait 1 fun
      | .returned (some v) => v + 2
      | _ => 2
    | 1 => .suspend fun r => r + 2
    | n + 2 => .coReturn (some n)
  isVoid _ := false
  coReturn := by
    intro b v h
    match b with
    | 0 => cases h
    | 1 => cases h
    | n + 2 =>
      cases h
      rfl
  coAwait _ _ := rfl
  suspend _ _ := rfl
  stopRequested _ _ := rfl
  requestStop _ := rfl

/-- Where a task is started once and dropped only before that or when it is done, no assertion fails,
and no coroutine is used that is gone or not suspended. -/
theorem Reachable.not_fault (h : Reachable P s) : s.step P e ≠ some (.error f) := by
  intro hstep
  obtain ⟨s', hok, -⟩ := effect_of_step h.inv hstep
  cases hok

theorem not_fault_echo : ∃ s, Steps.run (State.next? echo) .init
    [.create 0, .start 0 none, .advance 0, .advance 1, .complete 1 5] = some s ∧
      s.step echo (.advance 1) ≠ some (.error .notSuspended) :=
  ⟨_, rfl, Reachable.not_fault ⟨[.create 0, .start 0 none, .advance 0, .advance 1, .complete 1 5],
    rfl⟩⟩

/-! One coroutine of a task is active. -/

/-- It can go on, or waits for something that is not a task. -/
def Point.isActive : Point σ V E R → Bool
  | initial _ => true
  | running _ => true
  | awaiting _ _ => false
  | resuming _ _ => true
  | suspended _ => true
  | final => false

/-- The active coroutine among those of a task. -/
def current : Conf σ (Outcome V E) → List CoroId → Option CoroId
  | .eval _ _, c :: _ => some c
  | .back _ (_ :: _), _ :: c :: _ => some c
  | _, _ => none

theorem Waiting.not_active {cont : Option CoroId} (h : Waiting P s t src cont c ps ks) (hd : d ∈ ps)
    (hco : s.heap d = some co) :
    co.promise.stpSrc = src ∧ (co.point.isActive = true ↔ some c = some d) := by
  obtain ⟨pr, h', k, hd', hsrc⟩ := h.awaiting d hd
  rw [hco] at hd'
  cases hd'
  have hne : c ≠ d := Nat.ne_of_gt (h.lt d hd)
  simp [hsrc, hne, Point.isActive]

/-- All coroutines of a task have one stop source, and one of them is active. -/
theorem At.stpSrc_and_isActive (ha : At P s t src conf live) (hd : s.heap d = some co)
    (ht : co.task = t) :
    co.promise.stpSrc = src ∧ (co.point.isActive = true ↔ current conf live = some d) := by
  have hmem : d ∈ live := (ha.mem d).2 ⟨co, hd, ht⟩
  cases ha.active with
  | initial hc hsrc =>
    obtain rfl := List.mem_singleton.1 hmem
    rw [hd] at hc
    cases hc
    simp [current, Point.isActive, Promise.fresh, hsrc]
  | running hc hvoid ho =>
    rcases List.mem_cons.1 hmem with rfl | hps
    · rw [hd] at hc
      cases hc
      simp [current, Point.isActive, ho.stpSrc]
    · exact ho.waiting.not_active hps hd
  | suspended hc hb hvoid ho =>
    rcases List.mem_cons.1 hmem with rfl | hps
    · rw [hd] at hc
      cases hc
      simp [current, Point.isActive, ho.stpSrc]
    · exact ho.waiting.not_active hps hd
  | resuming hc hvoid ho hlt hh hsrc hres =>
    rcases List.mem_cons.1 hmem with rfl | hmem
    · rw [hd] at hh
      cases hh
      simp [current, Point.isActive, hsrc, Nat.ne_of_lt hlt]
    · rcases List.mem_cons.1 hmem with rfl | hps
      · rw [hd] at hc
        cases hc
        simp [current, Point.isActive, ho.stpSrc]
      · exact ho.waiting.not_active hps hd
  | final hc hsrc hres =>
    obtain rfl := List.mem_singleton.1 hmem
    rw [hd] at hc
    cases hc
    simp [current, Point.isActive, hsrc]

theorem At.exists_current (ha : At P s t src conf live) (hc : s.heap t = some co)
    (hf : ¬co.point.isFinal) : ∃ a, current conf live = some a ∧ s.Live t a := by
  simp only [← ha.mem]
  cases ha.active with
  | initial hc' hsrc => exact ⟨t, rfl, List.mem_cons_self⟩
  | running hc' hvoid ho => exact ⟨_, rfl, List.mem_cons_self⟩
  | suspended hc' hb hvoid ho => exact ⟨_, rfl, List.mem_cons_self⟩
  | resuming hc' hvoid ho hlt hh hsrc hres =>
    exact ⟨_, rfl, List.mem_cons_of_mem _ List.mem_cons_self⟩
  | final hc' hsrc hres =>
    rw [hc] at hc'
    cases hc'
    exact absurd rfl hf

/-- A task that is not done has one active coroutine, and one that is done no other than itself.
All of its coroutines ask the stop source that it was started with. -/
theorem Reachable.one_active (h : Reachable P s) (hc : s.heap t = some co) (ht : co.task = t) :
    (∀ d co', s.heap d = some co' → co'.task = t → co'.promise.stpSrc = co.promise.stpSrc) ∧
      (¬co.point.isFinal → ∃! d, ∃ co', s.heap d = some co' ∧ co'.task = t ∧ co'.point.isActive) ∧
      (co.point.isFinal → ∀ d co', s.heap d = some co' → co'.task = t → d = t) := by
  obtain ⟨src, conf, live, ha⟩ := h.inv.task hc
  rw [ht] at ha
  refine ⟨?_, ?_, ?_⟩
  · intro d co' hd hdt
    exact (ha.stpSrc_and_isActive hd hdt).1.trans (ha.stpSrc_and_isActive hc ht).1.symm
  · intro hf
    obtain ⟨a, hcur, co', hco', hat⟩ := ha.exists_current hc hf
    refine ⟨a, ⟨co', hco', hat, (ha.stpSrc_and_isActive hco' hat).2.2 hcur⟩, ?_⟩
    rintro d ⟨co'', hd, hdt, hact⟩
    exact Option.some.inj (((ha.stpSrc_and_isActive hd hdt).2.1 hact).symm.trans hcur)
  · intro hf d co' hd hdt
    obtain ⟨pr, pt, u⟩ := co
    obtain rfl : u = t := ht
    obtain rfl : pt = .final := by
      cases pt with
      | final => rfl
      | _ => cases hf
    obtain ⟨o, -, -, -, rfl⟩ := ha.shape hc rfl
    exact List.mem_singleton.1 ((ha.mem d).2 ⟨co', hd, hdt⟩)

theorem one_active_echo : ∃ s, Steps.run (State.next? echo) .init
    [.create 0, .start 0 none, .advance 0, .advance 1] = some s ∧
      ∃! d, ∃ co, s.heap d = some co ∧ co.task = 0 ∧ co.point.isActive := by
  have hrun : ∃ s co, Steps.run (State.next? echo) .init
      [.create 0, .start 0 none, .advance 0, .advance 1] = some s ∧ s.heap 0 = some co ∧
        co.task = 0 ∧ co.point.isFinal = false := ⟨_, _, rfl, rfl, rfl, rfl⟩
  obtain ⟨s, co, hrun, hc, ht, hf⟩ := hrun
  exact ⟨s, hrun, (Reachable.one_active ⟨_, hrun⟩ hc ht).2.1 (by simp [hf])⟩

/-! Direct style. -/

theorem gone_of_run (hi : Inv P s) (hd : s.heap d = none) (hlt : d < s.next)
    (h : Steps.run (State.next? P) s es = some s') : s'.heap d = none := by
  have hrun := Steps.invariant_of_step (I := fun s => Inv P s ∧ s.heap d = none ∧ d < s.next)
    (fun s e t hs ht => by
      obtain ⟨hi, hd, hlt⟩ := hs
      have heff := effect_of_next? hi ht
      exact ⟨heff.inv, heff.gone d hd hlt, Nat.lt_of_lt_of_le hlt heff.next⟩) ⟨hi, hd, hlt⟩ h
  exact hrun.2.1

/-- A run of the coroutines of a task is a run in direct style. -/
theorem follows_of_run (hi : Inv P s) (ha : At P s t src conf live)
    (h : Steps.run (State.next? P) s es = some s') (hlive : s'.heap t ≠ none) :
    ∃ src' conf' live' os, At P s' t src' conf' live' ∧
      Steps.run (CallStack.step P.direct) conf os = some conf' ∧
        os.reduceOption = s.labels P t es := by
  induction es generalizing s src conf live with
  | nil =>
    obtain rfl := Option.some.inj h
    exact ⟨src, conf, live, [], ha, rfl, rfl⟩
  | cons e es ih =>
    obtain ⟨s₁, hstep, hrun⟩ := Option.bind_eq_some_iff.1 h
    have heff := effect_of_next? hi hstep
    have hlabels : s.labels P t (e :: es) = (s.label P t e).toList ++ s₁.labels P t es := by
      simp only [State.labels, hstep]
    rcases heff.task ha with hnone | ⟨src₁, conf₁, live₁, ha₁, hfol⟩
    · obtain ⟨co, hco, -⟩ := ha.live_self
      have hlt : t < s₁.next := Nat.lt_of_lt_of_le (hi.bounded t co hco) heff.next
      exact absurd (gone_of_run heff.inv hnone hlt hrun) hlive
    · obtain ⟨src', conf', live', os, ha', hos, hred⟩ := ih heff.inv ha₁ hrun
      rcases hfol with ⟨rfl, hl⟩ | hfol
      · exact ⟨src', conf', live', os, ha', hos, by rw [hlabels, hl, hred]; rfl⟩
      · refine ⟨src', conf', live', s.label P t e :: os, ha', ?_, ?_⟩
        · rw [Steps.run_cons_of hfol]
          exact hos
        · rw [hlabels, ← hred]
          cases s.label P t e with
          | none => rfl
          | some l => rfl

/-- A task that is done has the outcome of its body in direct style, where a `co_await` of a task
is a call, and has done there what was seen of it. -/
theorem Reachable.result_eval (h : Reachable P s) (hc : s.heap t = some ⟨pr, .initial b, t⟩)
    (hrun : Steps.run (State.next? P) s es = some s')
    (hf : s'.heap t = some ⟨pr', .final, t⟩) :
    ∃ o, pr'.result = .ok o ∧ Eval P.direct b (s.labels P t es) o := by
  obtain ⟨src, conf, live, ha⟩ := h.inv.task hc
  obtain ⟨-, -, -, rfl, -⟩ := ha.shape hc
  have hlive : s'.heap t ≠ none := by simp [hf]
  obtain ⟨src', conf', live', os, ha', hos, hred⟩ := follows_of_run h.inv ha hrun hlive
  obtain ⟨o, -, hres, rfl, -⟩ := ha'.shape hf rfl
  exact ⟨o, hres, hred ▸ CallStack.eval_of_run hos⟩

theorem result_eval_echo : Eval echo.direct 0 [.resumed 5] (.returned (some 5)) := by
  have hrun : ∃ s', Steps.run (State.next? echo) (State.init.create echo 0 0)
      [.start 0 none, .advance 0, .advance 1, .complete 1 5, .advance 1, .advance 0, .advance 0] =
        some s' ∧ s'.heap 0 = some ⟨⟨false, .value 5, none, none⟩, .final, 0⟩ :=
    ⟨_, rfl, rfl⟩
  obtain ⟨s', hrun, hf⟩ := hrun
  obtain ⟨o, ho, he⟩ := Reachable.result_eval ⟨[.create 0], rfl⟩ rfl hrun hf
  cases ho
  exact he

end Jkl.Task
