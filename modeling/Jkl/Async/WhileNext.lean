import Jkl.Lib.Run
import Mathlib.Data.List.Nodup

/-! `while_next`: a coroutine that starts a task for every value of a generator and joins them.
Its steps and those of the tasks interleave in any way; a critical section is one step. The
tasks are numbered in the order in which they are spawned, `R` is the content of a
`result_var()`: the `co_return` value of the generator or its exception. -/
namespace Jkl.Async.WhileNext

variable {R : Type*}

/-- Where the `while_next` coroutine is: in `co_await gen.next()`, between `emplace` and
`task.start`, after the loop, between the lock and `co_await std::suspend_always()`, suspended
there, or at its end. -/
inductive Phase where
  | looping
  | emplaced (n : ℕ)
  | exhausted
  | flagged
  | suspended
  | finished
  deriving DecidableEq, Repr

/-- The frame of `while_next` with its `while_helper`, and what the tasks have done. `moved`
tells that the map has moved the element which the reference `task` is for; `genResult` is the
`result_var()` of the generator once that is done, `resultVar` the one of `while_next`.
`resuming` tells that an `on_suspend_then` is between its critical section and the end,
`misused` that `start` was called through a dangling reference. -/
structure State (R : Type*) where
  phase : Phase
  spawned : ℕ
  pts : List ℕ
  moved : Bool
  taskStarted : Bool
  wpSuspended : Bool
  started : List ℕ
  collected : List ℕ
  genResult : Option R
  resultVar : Option R
  resuming : Bool
  continued : ℕ
  misused : Bool

def State.init : State R :=
  { phase := .looping, spawned := 0, pts := [], moved := false, taskStarted := false,
    wpSuspended := false, started := [], collected := [], genResult := none, resultVar := none,
    resuming := false, continued := 0, misused := false }

inductive Event (R : Type*) where
  -- of the coroutine
  | yielded
  | start
  | exhausted (r : R)
  | examine
  | suspend
  -- of the tasks
  | collect (p : ℕ)
  | erase (p : ℕ) (moves : Bool)
  | resume

namespace State

/-- `wh.emplace(while_task(..))`. -/
def emplace (s : State R) : State R :=
  { s with
    phase := .emplaced s.spawned, spawned := s.spawned + 1, pts := s.spawned :: s.pts
    moved := false }

/-- `task.start(..)`: a reference whose element has moved is not one to task `n`. -/
def startTask (n : ℕ) (s : State R) : State R :=
  let s := { s with phase := .looping, taskStarted := true }
  if s.moved then { s with misused := true } else { s with started := n :: s.started }

/-- `co_return gen.promise().result()`, with the resumption at the final suspend point. -/
def coReturn (s : State R) : State R :=
  { s with phase := .finished, resultVar := s.genResult, continued := s.continued + 1 }

/-- What follows the loop, up to the suspension. -/
def examine (s : State R) : State R :=
  if s.taskStarted then
    if s.pts.isEmpty then s.coReturn else { s with phase := .flagged, wpSuspended := true }
  else s.coReturn

/-- The critical section of `on_suspend_then`. -/
def erase (p : ℕ) (moves : Bool) (s : State R) : State R :=
  let pts := s.pts.erase p
  let allDone := pts.isEmpty && s.wpSuspended
  { s with pts := pts, moved := s.moved || moves, resuming := s.resuming || allDone }

/-- The rest of `on_suspend_then` for the last task. -/
def resumeContinuation (s : State R) : State R :=
  { s with resuming := false, resultVar := s.genResult, continued := s.continued + 1 }

end State

def step (s : State R) : Event R → Option (State R)
  | .yielded => if s.phase = .looping then some s.emplace else none
  | .start =>
    match s.phase with
    | .emplaced n => some (s.startTask n)
    | _ => none
  | .exhausted r =>
    if s.phase = .looping then some { s with phase := .exhausted, genResult := some r } else none
  | .examine => if s.phase = .exhausted then some s.examine else none
  | .suspend => if s.phase = .flagged then some { s with phase := .suspended } else none
  | .collect p =>
    if p ∈ s.started ∧ p ∉ s.collected then some { s with collected := p :: s.collected }
    else none
  | .erase p moves => if p ∈ s.collected ∧ p ∈ s.pts then some (s.erase p moves) else none
  | .resume => if s.resuming then some s.resumeContinuation else none

/-- The coroutine has suspended or finished. -/
def Phase.Ended (p : Phase) : Prop := p = .suspended ∨ p = .finished

/-- The awaiting coroutine is continued at most once, not before the generator is exhausted,
all tasks have been started and collected and the coroutine has suspended or finished, with the
result of the generator; and it has been continued once no step is left. -/
structure Joined (s : State R) : Prop where
  once : s.continued ≤ 1
  inTime : 0 < s.continued → s.phase.Ended ∧ s.genResult.isSome ∧
    (∀ p < s.spawned, p ∈ s.collected) ∧ s.resultVar = s.genResult
  done : (∀ e, step s e = none) → s.continued = 1
  unmisused : s.misused = false

/-- A step that comes too early: the last task resumes the continuation before the coroutine
has suspended, or a task is started after its element in the map has moved. -/
def Hasty (s : State R) : Event R → Prop
  | .resume => s.phase = .flagged
  | .start => s.moved = true
  | _ => False

/-- Where the tasks are. -/
structure Tasks (s : State R) : Prop where
  nodup : s.pts.Nodup
  known : ∀ p ∈ s.pts, p < s.spawned
  collected : ∀ p ∈ s.collected, p ∈ s.started
  left : ∀ p < s.spawned, p ∈ s.pts ∨ p ∈ s.collected
  begun : ∀ p < s.spawned, p ∈ s.started ∨ s.phase = .emplaced p
  started : ∀ p ∈ s.started, p < s.spawned
  placed : ∀ n, s.phase = .emplaced n → s.spawned = n + 1 ∧ n ∉ s.started
  any : s.taskStarted = false → s.spawned = 0 ∨ s.phase = .emplaced 0

/-- Where the coroutine is, and who is to continue the one that awaits it. -/
structure Exits (s : State R) : Prop where
  exhausted : (s.phase = .looping ∨ ∃ n, s.phase = .emplaced n) ↔ s.genResult = none
  flag : s.wpSuspended = true ↔ s.phase = .flagged ∨ s.phase = .suspended
  finished : s.phase = .finished → s.pts = [] ∧ s.resuming = false ∧ s.continued = 1
  open' : s.wpSuspended = false → s.phase ≠ .finished → s.resuming = false ∧ s.continued = 0
  waiting : s.wpSuspended = true → s.pts ≠ [] → s.resuming = false ∧ s.continued = 0
  last : s.wpSuspended = true → s.pts = [] →
    s.resuming = true ∧ s.continued = 0 ∨ s.resuming = false ∧ s.continued = 1
  early : s.phase = .flagged → s.continued = 0
  result : 0 < s.continued → s.resultVar = s.genResult

structure Kept (s : State R) : Prop where
  tasks : Tasks s
  exits : Exits s
  unmisused : s.misused = false

variable {s t : State R} {e : Event R} {n p : ℕ} {moves : Bool} {r : R}

theorem kept_init : Kept (State.init : State R) := by
  refine ⟨⟨?_, ?_, ?_, ?_, ?_, ?_, ?_, ?_⟩, ⟨?_, ?_, ?_, ?_, ?_, ?_, ?_, ?_⟩, rfl⟩ <;>
    simp [State.init]

/-- Away from `emplace`, every task has been started. -/
theorem Tasks.all_started (ht : Tasks s) (hp : ∀ n, s.phase ≠ .emplaced n) :
    ∀ p < s.spawned, p ∈ s.started :=
  fun p hlt => (ht.begun p hlt).resolve_right (hp p)

theorem Kept.emplace (hs : Kept s) (hp : s.phase = .looping) : Kept s.emplace := by
  obtain ⟨ht, he, hm⟩ := hs
  have hfresh : s.spawned ∉ s.pts := fun h => Nat.lt_irrefl _ (ht.known _ h)
  have hnew : s.spawned ∉ s.started := fun h => Nat.lt_irrefl _ (ht.started _ h)
  have hflag : s.wpSuspended = false := by
    rw [Bool.eq_false_iff, ne_eq, he.flag, hp]
    simp
  refine ⟨?_, ?_, hm⟩
  · constructor
    · exact List.nodup_cons.2 ⟨hfresh, ht.nodup⟩
    · intro p hp
      rcases List.mem_cons.1 hp with rfl | hp
      · exact Nat.lt_succ_self _
      · exact Nat.lt_succ_of_lt (ht.known p hp)
    · exact ht.collected
    · intro p hp
      rcases Nat.lt_succ_iff_lt_or_eq.1 hp with hp | rfl
      · rcases ht.left p hp with h | h
        · exact .inl (List.mem_cons_of_mem _ h)
        · exact .inr h
      · exact .inl List.mem_cons_self
    · intro p hlt
      rcases Nat.lt_succ_iff_lt_or_eq.1 hlt with hlt | rfl
      · exact .inl ((ht.begun p hlt).resolve_right (by simp [hp]))
      · exact .inr rfl
    · exact fun p hp => Nat.lt_succ_of_lt (ht.started p hp)
    · rintro n hn
      obtain rfl := Phase.emplaced.inj hn
      exact ⟨rfl, hnew⟩
    · intro hany
      have hnone : s.spawned = 0 := by simpa [hp] using ht.any hany
      exact .inr (congrArg Phase.emplaced hnone)
  · have hopen := he.open' hflag (by simp [hp])
    constructor
    · simpa [State.emplace] using he.exhausted.1 (.inl hp)
    · simp [State.emplace, hflag]
    · simp [State.emplace]
    · exact fun _ _ => hopen
    · exact fun h => absurd h (by simp [State.emplace, hflag])
    · exact fun h => absurd h (by simp [State.emplace, hflag])
    · simp [State.emplace]
    · intro h
      exact absurd h (by simp [State.emplace, hopen.2])

theorem Kept.startTask (hs : Kept s) (hp : s.phase = .emplaced n) (hm : s.moved = false) :
    Kept (s.startTask n) := by
  obtain ⟨ht, he, hmis⟩ := hs
  obtain ⟨hn, hnew⟩ := ht.placed n hp
  have hflag : s.wpSuspended = false := by
    rw [Bool.eq_false_iff, ne_eq, he.flag, hp]
    simp
  have hopen := he.open' hflag (by simp [hp])
  simp only [State.startTask, hm, Bool.false_eq_true, if_false]
  refine ⟨⟨ht.nodup, ht.known, ?_, ht.left, ?_, ?_, by simp, by simp⟩, ?_, hmis⟩
  · exact fun p hp => List.mem_cons_of_mem _ (ht.collected p hp)
  · intro p hlt
    rcases ht.begun p hlt with h | h
    · exact .inl (List.mem_cons_of_mem _ h)
    · obtain rfl := Phase.emplaced.inj (hp.symm.trans h)
      exact .inl List.mem_cons_self
  · intro p hp
    rcases List.mem_cons.1 hp with rfl | hp
    · exact hn ▸ Nat.lt_succ_self _
    · exact ht.started p hp
  · constructor
    · simpa using he.exhausted.1 (.inr ⟨n, hp⟩)
    · simp [hflag]
    · simp
    · exact fun _ _ => hopen
    · exact fun h => absurd h (by simp [hflag])
    · exact fun h => absurd h (by simp [hflag])
    · simp
    · exact he.result

theorem Kept.exhaust (hs : Kept s) (hp : s.phase = .looping) (r : R) :
    Kept { s with phase := .exhausted, genResult := some r } := by
  obtain ⟨ht, he, hm⟩ := hs
  have hflag : s.wpSuspended = false := by
    rw [Bool.eq_false_iff, ne_eq, he.flag, hp]
    simp
  have hopen := he.open' hflag (by simp [hp])
  have hbegun := ht.all_started (by simp [hp])
  refine ⟨⟨ht.nodup, ht.known, ht.collected, ht.left, fun p hlt => .inl (hbegun p hlt),
    ht.started, by simp, ?_⟩, ?_, hm⟩
  · intro hany
    simpa [hp] using ht.any hany
  · constructor
    · simp
    · simp [hflag]
    · simp
    · exact fun _ _ => hopen
    · exact fun h => absurd h (by simp [hflag])
    · exact fun h => absurd h (by simp [hflag])
    · simp
    · exact fun h => absurd h (by simp [hopen.2])

theorem Kept.coReturn (hs : Kept s) (hp : s.phase = .exhausted) (hpts : s.pts = []) :
    Kept s.coReturn := by
  obtain ⟨ht, he, hm⟩ := hs
  have hflag : s.wpSuspended = false := by
    rw [Bool.eq_false_iff, ne_eq, he.flag, hp]
    simp
  have hopen := he.open' hflag (by simp [hp])
  have hbegun := ht.all_started (by simp [hp])
  refine ⟨⟨ht.nodup, ht.known, ht.collected, ht.left, fun p hlt => .inl (hbegun p hlt),
    ht.started, ?_, ?_⟩, ?_, hm⟩
  · simp [State.coReturn]
  · intro hany
    have hnone : s.spawned = 0 := by simpa [hp] using ht.any hany
    exact .inl hnone
  · constructor
    · simpa [State.coReturn, hp] using he.exhausted
    · simp [State.coReturn, hflag]
    · exact fun _ => ⟨hpts, hopen.1, by simp [State.coReturn, hopen.2]⟩
    · exact fun _ h => absurd rfl h
    · exact fun h => absurd h (by simp [State.coReturn, hflag])
    · exact fun h => absurd h (by simp [State.coReturn, hflag])
    · simp [State.coReturn]
    · exact fun _ => rfl

theorem Kept.examine (hs : Kept s) (hp : s.phase = .exhausted) : Kept s.examine := by
  unfold State.examine
  split_ifs with hany hpts
  · exact hs.coReturn hp (List.isEmpty_iff.1 hpts)
  · obtain ⟨ht, he, hm⟩ := hs
    have hflag : s.wpSuspended = false := by
      rw [Bool.eq_false_iff, ne_eq, he.flag, hp]
      simp
    have hopen := he.open' hflag (by simp [hp])
    have hpts : s.pts ≠ [] := fun h => hpts (List.isEmpty_iff.2 h)
    have hbegun := ht.all_started (by simp [hp])
    refine ⟨⟨ht.nodup, ht.known, ht.collected, ht.left, fun p hlt => .inl (hbegun p hlt),
      ht.started, by simp, ?_⟩, ?_, hm⟩
    · exact fun h => absurd h (by simp [hany])
    · constructor
      · simpa [hp] using he.exhausted
      · simp
      · simp
      · simp
      · exact fun _ _ => hopen
      · exact fun _ h => absurd h hpts
      · exact fun _ => hopen.2
      · exact fun h => absurd h (by simp [hopen.2])
  · have hnone : s.spawned = 0 := by simpa [hp] using hs.tasks.any (by simpa using hany)
    refine hs.coReturn hp (List.eq_nil_iff_forall_not_mem.2 fun p hmem => ?_)
    exact absurd (hs.tasks.known p hmem) (by omega)

theorem Kept.suspend (hs : Kept s) (hp : s.phase = .flagged) :
    Kept { s with phase := .suspended } := by
  obtain ⟨ht, he, hm⟩ := hs
  have hflag : s.wpSuspended = true := he.flag.2 (.inl hp)
  have hbegun := ht.all_started (by simp [hp])
  refine ⟨⟨ht.nodup, ht.known, ht.collected, ht.left, fun p hlt => .inl (hbegun p hlt),
    ht.started, by simp, ?_⟩, ?_, hm⟩
  · exact fun hany => by simpa [hp] using ht.any hany
  · constructor
    · simpa [hp] using he.exhausted
    · simp [hflag]
    · simp
    · exact fun h => absurd h (by simp [hflag])
    · exact he.waiting
    · exact he.last
    · simp
    · exact he.result

theorem Kept.collect (hs : Kept s) (hp : p ∈ s.started) :
    Kept { s with collected := p :: s.collected } := by
  obtain ⟨ht, he, hm⟩ := hs
  refine ⟨⟨ht.nodup, ht.known, ?_, ?_, ht.begun, ht.started, ht.placed, ht.any⟩, ?_, hm⟩
  · intro q hq
    rcases List.mem_cons.1 hq with rfl | hq
    · exact hp
    · exact ht.collected q hq
  · intro q hq
    exact (ht.left q hq).imp_right (List.mem_cons_of_mem _)
  · exact ⟨he.exhausted, he.flag, he.finished, he.open', he.waiting, he.last, he.early, he.result⟩

theorem Kept.erase (hs : Kept s) (hc : p ∈ s.collected) (hp : p ∈ s.pts) (moves : Bool) :
    Kept (s.erase p moves) := by
  obtain ⟨ht, he, hm⟩ := hs
  have hne : s.pts ≠ [] := List.ne_nil_of_mem hp
  refine ⟨⟨ht.nodup.erase p, ?_, ht.collected, ?_, ht.begun, ht.started, ht.placed, ht.any⟩,
    ?_, hm⟩
  · exact fun q hq => ht.known q (List.mem_of_mem_erase hq)
  · intro q hq
    by_cases hqp : q = p
    · exact .inr (hqp ▸ hc)
    · exact (ht.left q hq).imp_left (List.mem_erase_of_ne hqp).2
  · have hres : (s.erase p moves).resuming =
        (s.resuming || ((s.pts.erase p).isEmpty && s.wpSuspended)) := rfl
    constructor
    · exact he.exhausted
    · exact he.flag
    · intro hfin
      exact absurd (he.finished hfin).1 hne
    · intro hflag hfin
      have hopen := he.open' hflag hfin
      have hflag : s.wpSuspended = false := hflag
      exact ⟨by simp [hres, hopen.1, hflag], hopen.2⟩
    · intro hflag hrest
      have hwait := he.waiting hflag hne
      have hrest : s.pts.erase p ≠ [] := hrest
      exact ⟨by simp [hres, hwait.1, hrest], hwait.2⟩
    · intro hflag hrest
      have hwait := he.waiting hflag hne
      have hflag : s.wpSuspended = true := hflag
      have hrest : s.pts.erase p = [] := hrest
      exact .inl ⟨by simp [hres, hrest, hflag], hwait.2⟩
    · exact he.early
    · exact he.result

theorem Kept.resume (hs : Kept s) (hres : s.resuming = true) (hp : s.phase ≠ .flagged) :
    Kept s.resumeContinuation := by
  obtain ⟨ht, he, hm⟩ := hs
  have hflag : s.wpSuspended = true := by
    by_contra hflag
    rw [Bool.not_eq_true] at hflag
    by_cases hfin : s.phase = .finished
    · have := (he.finished hfin).2.1
      simp [hres] at this
    · have := (he.open' hflag hfin).1
      simp [hres] at this
  have hpts : s.pts = [] := by
    by_contra hne
    have := (he.waiting hflag hne).1
    simp [hres] at this
  have hzero : s.continued = 0 := by
    rcases he.last hflag hpts with h | h
    · exact h.2
    · exact absurd h.1 (by simp [hres])
  have hsus : s.phase = .suspended := (he.flag.1 hflag).resolve_left hp
  refine ⟨⟨ht.nodup, ht.known, ht.collected, ht.left, ht.begun, ht.started, ht.placed, ht.any⟩,
    ?_, hm⟩
  constructor
  · exact he.exhausted
  · exact he.flag
  · intro hfin
    have hfin : s.phase = .finished := hfin
    simp [hsus] at hfin
  · intro h
    have h : s.wpSuspended = false := h
    simp [hflag] at h
  · exact fun _ h => absurd hpts h
  · exact fun _ _ => .inr ⟨rfl, by simp [State.resumeContinuation, hzero]⟩
  · exact fun h => absurd h hp
  · exact fun _ => rfl

theorem kept_step (hs : Kept s) (h : step s e = some t) (hh : ¬ Hasty s e) : Kept t := by
  cases e with
  | yielded =>
    simp only [step] at h
    split_ifs at h with hp
    exact Option.some.inj h ▸ hs.emplace hp
  | start =>
    simp only [step] at h
    split at h
    next n hp => exact Option.some.inj h ▸ hs.startTask hp (by simpa [Hasty] using hh)
    next => cases h
  | exhausted r =>
    simp only [step] at h
    split_ifs at h with hp
    exact Option.some.inj h ▸ hs.exhaust hp r
  | examine =>
    simp only [step] at h
    split_ifs at h with hp
    exact Option.some.inj h ▸ hs.examine hp
  | suspend =>
    simp only [step] at h
    split_ifs at h with hp
    exact Option.some.inj h ▸ hs.suspend hp
  | collect p =>
    simp only [step] at h
    split_ifs at h with hp
    exact Option.some.inj h ▸ hs.collect hp.1
  | erase p moves =>
    simp only [step] at h
    split_ifs at h with hp
    exact Option.some.inj h ▸ hs.erase hp.1 hp.2 moves
  | resume =>
    simp only [step] at h
    split_ifs at h with hres
    exact Option.some.inj h ▸ hs.resume hres hh

/-- When nothing can happen any more the awaiting coroutine has been continued. -/
theorem continued_of_stuck (hs : Kept s) (hstuck : ∀ e, step s e = none) : s.continued = 1 := by
  obtain ⟨ht, he, -⟩ := hs
  cases hp : s.phase with
  | looping => simpa [step, hp] using hstuck .yielded
  | emplaced n => simpa [step, hp] using hstuck .start
  | exhausted => simpa [step, hp] using hstuck .examine
  | flagged => simpa [step, hp] using hstuck .suspend
  | finished => exact (he.finished hp).2.2
  | suspended =>
    have hres : s.resuming = false := by simpa [step] using hstuck .resume
    have hpts : s.pts = [] := by
      refine List.eq_nil_iff_forall_not_mem.2 fun p hmem => ?_
      have hcol : p ∈ s.collected := by
        have hstart := ht.all_started (by simp [hp]) p (ht.known p hmem)
        have := hstuck (.collect p)
        simpa [step, hstart] using this
      simpa [step, hmem, hcol] using hstuck (.erase p false)
    rcases he.last (he.flag.2 (.inr hp)) hpts with h | h
    · simp [hres] at h
    · exact h.2

theorem joined_of_kept (hs : Kept s) : Joined s := by
  obtain ⟨ht, he, hm⟩ := hs
  -- once the coroutine is continued no task is left
  have hcont : 0 < s.continued → s.phase.Ended ∧ s.pts = [] ∧ s.continued = 1 := by
    intro hpos
    by_cases hfin : s.phase = .finished
    · exact ⟨.inr hfin, (he.finished hfin).1, (he.finished hfin).2.2⟩
    · have hflag : s.wpSuspended = true := by
        by_contra hflag
        have := (he.open' (by simpa using hflag) hfin).2
        omega
      have hpts : s.pts = [] := by
        by_contra hne
        have := (he.waiting hflag hne).2
        omega
      refine ⟨?_, hpts, ?_⟩
      · rcases he.flag.1 hflag with hp | hp
        · have := he.early hp
          omega
        · exact .inl hp
      · rcases he.last hflag hpts with h | h
        · omega
        · exact h.2
  constructor
  · by_contra hgt
    have := (hcont (by omega)).2.2
    omega
  · intro hpos
    obtain ⟨hend, hpts, -⟩ := hcont hpos
    refine ⟨hend, ?_, ?_, he.result hpos⟩
    · rw [Option.isSome_iff_ne_none, ne_eq, ← he.exhausted]
      rcases hend with hp | hp <;> simp [hp]
    · intro p hp
      exact (ht.left p hp).resolve_left (by simp [hpts])
  · exact continued_of_stuck ⟨ht, he, hm⟩
  · exact hm

theorem not_joined_hasty (h : step s e = some t) (hh : Hasty s e) : ¬ Joined t := by
  intro hj
  cases e with
  | start =>
    simp only [step] at h
    split at h
    next n hp =>
      obtain rfl := Option.some.inj h
      have := hj.unmisused
      have hmoved : s.moved = true := hh
      simp [State.startTask, hmoved] at this
    next => cases h
  | resume =>
    simp only [step] at h
    split_ifs at h with hres
    obtain rfl := Option.some.inj h
    have hend := (hj.inTime (Nat.succ_pos _)).1
    have hphase : s.resumeContinuation.phase = .flagged := hh
    rw [hphase] at hend
    rcases hend with hp | hp <;> cases hp
  | _ => exact hh.elim

/-- The join is right in exactly the runs in which the last task does not resume the
continuation between the flag and the suspension, and no task is started after its element in
the map has moved. -/
theorem each_joined_iff (es : List (Event R)) :
    Steps.Each step (fun _ _ t => Joined t) State.init es ↔
      Steps.Each step (fun s e _ => ¬ Hasty s e) State.init es := by
  refine Steps.each_iff_each (I := Kept) ?_ ?_ kept_init
  · intro s e t hs h
    constructor
    · intro hj hh
      exact not_joined_hasty h hh hj
    · intro hh
      exact joined_of_kept (kept_step hs h hh)
  · intro s e t hs h hh
    exact kept_step hs h hh

/-- One task, which ends between the flag and the suspension. -/
theorem not_each_joined : ¬ Steps.Each step (fun _ _ t => Joined t) (State.init : State Unit)
    [.yielded, .start, .exhausted (), .collect 0, .examine, .erase 0 false, .resume] := by
  intro h
  obtain ⟨-, h⟩ := h _ rfl
  obtain ⟨-, h⟩ := h _ rfl
  obtain ⟨-, h⟩ := h _ rfl
  obtain ⟨-, h⟩ := h _ rfl
  obtain ⟨-, h⟩ := h _ rfl
  obtain ⟨-, h⟩ := h _ rfl
  obtain ⟨hj, -⟩ := h _ rfl
  have hend := (hj.inTime (by decide)).1
  rcases hend with hp | hp <;> exact absurd hp (by decide)

end Jkl.Async.WhileNext
