import Jkl.Lib.Run
import Mathlib.Algebra.BigOperators.Intervals
import Mathlib.Algebra.Group.Nat.Defs
import Mathlib.Data.Int.CardIntervalMod
import Mathlib.Logic.Function.Basic

/-! `ioc_pool`: the contexts that `get_ioc` gives to threads that call it at once, and the threads
that `start` gives to the contexts. -/
namespace Jkl.IocPool

/-- The part of `start(threads)` of `n` contexts that the `i`th one gets. -/
def share (threads n i : ℕ) : ℕ := threads / n + if i < threads % n then 1 else 0

/-! `get_ioc`. -/

abbrev ThreadId := ℕ

/-- The atomic `_next`, the `idx` of each thread that is in a call, and the indices of the calls
that have returned, the last one last. -/
structure Calls where
  next : ℕ
  idx : ThreadId → Option ℕ
  got : List ℕ

inductive Event where
  /-- `_next.load()`. -/
  | load (t : ThreadId)
  /-- `compare_exchange_weak`, which may fail for no reason. -/
  | exchange (t : ThreadId) (spurious : Bool)

namespace Calls

def init : Calls := ⟨0, fun _ => none, []⟩

def step (n : ℕ) (s : Calls) : Event → Option Calls
  | .load t =>
    match s.idx t with
    | none => some { s with idx := Function.update s.idx t (some s.next) }
    | some _ => none
  | .exchange t spurious =>
    match s.idx t with
    | none => none
    | some i =>
      if s.next = i ∧ spurious = false then
        some ⟨(i + 1) % n, Function.update s.idx t none, s.got ++ [i]⟩
      else some { s with idx := Function.update s.idx t (some s.next) }

/-- The calls that have returned got one index after the other. -/
structure RoundRobin (n : ℕ) (s : Calls) : Prop where
  next : s.next = s.got.length % n
  got : s.got = (List.range s.got.length).map (· % n)

variable {n i : ℕ} {s t : Calls} {e : Event} {es : List Event}

theorem RoundRobin.step (h : RoundRobin n s) (hs : s.step n e = some t) : RoundRobin n t := by
  cases e with
  | load u =>
    simp only [Calls.step] at hs
    split at hs
    · cases hs
      exact ⟨h.next, h.got⟩
    · cases hs
  | exchange u spurious =>
    simp only [Calls.step] at hs
    split at hs
    · cases hs
    · rename_i i hi
      split_ifs at hs with hx
      · cases hs
        obtain ⟨rfl, -⟩ := hx
        constructor
        · simp [h.next, Nat.mod_add_mod]
        · rw [List.length_append, List.length_singleton, List.range_succ, List.map_append,
            List.map_singleton, ← h.got, ← h.next]
      · cases hs
        exact ⟨h.next, h.got⟩

theorem roundRobin_of_run (h : Steps.run (step n) init es = some s) : RoundRobin n s :=
  Steps.invariant_of_step (I := RoundRobin n) (fun _ _ _ => RoundRobin.step)
    ⟨(Nat.zero_mod n).symm, rfl⟩ h

end Calls

theorem count_mod_range {k n i : ℕ} (hi : i < n) :
    ((List.range k).map (· % n)).count i = share k n i := by
  have hcount : ((List.range k).map (· % n)).count i = k.count (· ≡ i [MOD n]) := by
    induction k with
    | zero => rfl
    | succ k ih =>
      rw [List.range_succ, List.map_append, List.map_singleton, List.count_append, ih,
        Nat.count_succ, List.count_singleton]
      simp only [beq_iff_eq, Nat.ModEq, Nat.mod_eq_of_lt hi]
  rw [hcount, Nat.count_modEq_card k (Nat.zero_lt_of_lt hi), Nat.mod_eq_of_lt hi, share]

/-- However the calls of `get_ioc` interleave, they give the contexts in turn: of `k` calls each
context gets as many as it gets threads from `start(k)`. -/
theorem get_ioc_round_robin {n : ℕ} {es : List Event} {s : Calls}
    (h : Steps.run (Calls.step n) .init es = some s) :
    s.got = (List.range s.got.length).map (· % n) ∧
      ∀ i < n, s.got.count i = share s.got.length n i := by
  have hr := Calls.roundRobin_of_run h
  refine ⟨hr.got, ?_⟩
  intro i hi
  rw [hr.got, List.length_map, List.length_range]
  exact count_mod_range hi

/-- Two calls that race, and a third one. -/
theorem get_ioc_round_robin_two :
    ∃ s, Steps.run (Calls.step 2) .init [.load 0, .load 1, .exchange 0 false, .exchange 1 false,
      .exchange 1 true, .exchange 1 false, .load 0, .exchange 0 false] = some s ∧
        s.got.length = 3 ∧ s.got.count 0 = share s.got.length 2 0 := by
  have hrun : ∃ s, Steps.run (Calls.step 2) .init [.load 0, .load 1, .exchange 0 false,
      .exchange 1 false, .exchange 1 true, .exchange 1 false, .load 0, .exchange 0 false] = some s ∧
        s.got.length = 3 := ⟨_, rfl, rfl⟩
  obtain ⟨s, hrun, hlen⟩ := hrun
  exact ⟨s, hrun, hlen, (get_ioc_round_robin hrun).2 0 (by decide)⟩

/-! `start` and `join`. -/

inductive Assertion where
  /-- `! _wg`. -/
  | guard
  /-- `_threads.empty()`. -/
  | noThreads
  /-- `_threads.size()`. -/
  | threads
  /-- `_ioc.stopped()`. -/
  | stopped
  /-- `threads >= ioc_cnt()`. -/
  | enough
deriving DecidableEq, Repr

/-- `mt_ioc_src`: whether there is a work guard, and the number of threads. -/
structure MtIocSrc where
  wg : Bool
  threads : ℕ
deriving DecidableEq, Repr

namespace MtIocSrc

def start (src : MtIocSrc) (threads : ℕ) : Except Assertion MtIocSrc :=
  if src.wg then .error .guard
  else if src.threads ≠ 0 then .error .noThreads
  else .ok ⟨true, threads⟩

/-- `iocStopped` is what `_ioc.stopped()` gives after `run()` has returned in that many threads. -/
def join (iocStopped : ℕ → Bool) (src : MtIocSrc) : Except Assertion MtIocSrc :=
  if src.wg then
    if src.threads = 0 then .error .threads
    else if iocStopped src.threads then .ok ⟨false, 0⟩
    else .error .stopped
  else .ok src

def stopped (src : MtIocSrc) : Bool := src.threads == 0

end MtIocSrc

/-- `_srcs[i].start(d + (i < r), onExcep)` for each `i`. -/
def startFrom (threads n : ℕ) : ℕ → List MtIocSrc → Except Assertion (List MtIocSrc)
  | _, [] => .ok []
  | i, src :: srcs => do
    let src ← src.start (share threads n i)
    let srcs ← startFrom threads n (i + 1) srcs
    return src :: srcs

def start (srcs : List MtIocSrc) (threads : ℕ) : Except Assertion (List MtIocSrc) :=
  if threads < srcs.length then .error .enough else startFrom threads srcs.length 0 srcs

def join (iocStopped : ℕ → Bool) : List MtIocSrc → Except Assertion (List MtIocSrc)
  | [] => .ok []
  | src :: srcs => do
    let src ← src.join iocStopped
    let srcs ← join iocStopped srcs
    return src :: srcs

inductive Op where
  | start (threads : ℕ)
  | join
deriving DecidableEq, Repr

/-- The calls, one after the other. -/
def perform (iocStopped : ℕ → Bool) : List MtIocSrc → List Op → Except Assertion (List MtIocSrc)
  | srcs, [] => .ok srcs
  | srcs, .start threads :: ops => do perform iocStopped (← start srcs threads) ops
  | srcs, .join :: ops => do perform iocStopped (← join iocStopped srcs) ops

/-- A pool that was never started, or joined. -/
def idle (n : ℕ) : List MtIocSrc := List.replicate n ⟨false, 0⟩

/-- A pool that was started. -/
def busy (n threads : ℕ) : List MtIocSrc := (List.range n).map fun i => ⟨true, share threads n i⟩

/-- Every `start` has a thread for each context, and finds the pool joined. -/
def Fits (n : ℕ) : (started : Bool) → List Op → Prop
  | _, [] => True
  | started, .start threads :: ops => started = false ∧ n ≤ threads ∧ Fits n true ops
  | _, .join :: ops => Fits n false ops

variable {n k i m : ℕ} {ops : List Op} {srcs : List MtIocSrc} {iocStopped : ℕ → Bool}

theorem share_pos (hn : 1 ≤ n) (hk : n ≤ k) : 1 ≤ share k n i :=
  Nat.le_trans (Nat.div_pos hk hn) (Nat.le_add_right _ _)

theorem sum_map_range_lt (m r : ℕ) :
    ((List.range m).map fun i => if i < r then 1 else 0).sum = min m r := by
  induction m with
  | zero => simp
  | succ m ih =>
    rw [List.range_succ, List.map_append, List.sum_append, ih, List.map_singleton,
      List.sum_singleton]
    split_ifs <;> omega

/-- The parts are all of the threads. -/
theorem sum_share (hn : 1 ≤ n) : ((List.range n).map (share k n)).sum = k := by
  have hr : k % n < n := Nat.mod_lt k hn
  calc ((List.range n).map (share k n)).sum
      = ((List.range n).map fun _ => k / n).sum +
          ((List.range n).map fun i => if i < k % n then 1 else 0).sum := List.sum_map_add
    _ = n * (k / n) + k % n := by
      rw [sum_map_range_lt, Nat.min_eq_right hr.le]
      simp
    _ = k := Nat.div_add_mod k n

theorem startFrom_idle :
    startFrom k n i (idle m) =
      .ok ((List.range' i m).map fun i => (⟨true, share k n i⟩ : MtIocSrc)) := by
  induction m generalizing i with
  | zero => rfl
  | succ m ih =>
    simp only [idle] at ih
    simp [idle, List.replicate_succ, startFrom, MtIocSrc.start, ih, List.range'_succ]
    rfl

theorem start_idle (hk : n ≤ k) : start (idle n) k = .ok (busy n k) := by
  have hlen : (idle n).length = n := List.length_replicate
  rw [start, hlen, if_neg (Nat.not_lt.2 hk), startFrom_idle, busy, List.range_eq_range']

theorem start_busy (hn : 1 ≤ n) : start (busy n m) k ≠ .ok srcs := by
  intro h
  obtain ⟨n, rfl⟩ := Nat.exists_eq_add_of_le' hn
  unfold start at h
  split_ifs at h
  simp only [busy, List.range_succ_eq_map, List.map_cons, startFrom, MtIocSrc.start, if_true] at h
  cases h

theorem join_idle : join iocStopped (idle n) = .ok (idle n) := by
  induction n with
  | zero => rfl
  | succ n ih =>
    simp only [idle] at ih
    simp only [idle, List.replicate_succ, join, MtIocSrc.join, ih]
    rfl

/-- `run()` returns only once the context is stopped. -/
def RunStops (iocStopped : ℕ → Bool) : Prop := ∀ k, k ≠ 0 → iocStopped k = true

theorem join_map (hrun : RunStops iocStopped) {l : List ℕ} {f : ℕ → ℕ} (hf : ∀ i, f i ≠ 0) :
    join iocStopped (l.map fun i => ⟨true, f i⟩) = .ok (idle l.length) := by
  induction l with
  | nil => rfl
  | cons i l ih =>
    simp only [List.map_cons, join, MtIocSrc.join, hf i, hrun (f i) (hf i), ih]
    rfl

theorem join_busy (hrun : RunStops iocStopped) (hn : 1 ≤ n) (hk : n ≤ k) :
    join iocStopped (busy n k) = .ok (idle n) := by
  have h := join_map hrun (l := List.range n) (f := share k n) fun i =>
    Nat.pos_iff_ne_zero.1 (share_pos hn hk)
  rwa [List.length_range] at h

/-- The pool, by the number of threads that it was started with. -/
def stateOf (n : ℕ) : Option ℕ → List MtIocSrc
  | none => idle n
  | some k => busy n k

/-- Where a run of calls leaves the pool. -/
def Ends (n : ℕ) (ops : List Op) (st : Option ℕ) (srcs : List MtIocSrc) : Prop :=
  srcs = idle n ∨ ∃ k, (st = some k ∨ .start k ∈ ops) ∧ srcs = busy n k

theorem perform_start_idle (hk : n ≤ k) :
    perform iocStopped (stateOf n none) (.start k :: ops) = perform iocStopped (stateOf n (some k)) ops := by
  simp only [perform, stateOf, start_idle hk]
  rfl

theorem perform_start_few (hk : ¬ n ≤ k) :
    perform iocStopped (stateOf n none) (.start k :: ops) = .error .enough := by
  have hlen : (idle n).length = n := List.length_replicate
  simp only [perform, stateOf, start, hlen, if_pos (Nat.lt_of_not_le hk)]
  rfl

theorem perform_start_busy (hn : 1 ≤ n) :
    perform iocStopped (stateOf n (some m)) (.start k :: ops) ≠ .ok srcs := by
  intro h
  simp only [perform, stateOf] at h
  cases hs : start (busy n m) k with
  | error a =>
    rw [hs] at h
    cases h
  | ok srcs' => exact start_busy hn hs

theorem perform_join {st : Option ℕ} (hrun : RunStops iocStopped) (hn : 1 ≤ n) (hst : ∀ k ∈ st, n ≤ k) :
    perform iocStopped (stateOf n st) (.join :: ops) = perform iocStopped (stateOf n none) ops := by
  cases st with
  | none =>
    simp only [perform, stateOf, join_idle]
    rfl
  | some k =>
    simp only [perform, stateOf, join_busy hrun hn (hst k rfl)]
    rfl

theorem Ends.start (h : Ends n ops (some k) srcs) : Ends n (.start k :: ops) none srcs := by
  rcases h with h | ⟨m, hm, h⟩
  · exact .inl h
  · refine .inr ⟨m, .inr ?_, h⟩
    rcases hm with hm | hm
    · cases hm
      exact List.mem_cons_self
    · exact List.mem_cons_of_mem _ hm

theorem Ends.join {st : Option ℕ} (h : Ends n ops none srcs) :
    Ends n (.join :: ops) st srcs := by
  rcases h with h | ⟨m, hm, h⟩
  · exact .inl h
  · exact .inr ⟨m, .inr (List.mem_cons_of_mem _ (hm.resolve_left (by simp))), h⟩

theorem perform_iff {st : Option ℕ} (hrun : RunStops iocStopped) (hn : 1 ≤ n) (hst : ∀ k ∈ st, n ≤ k) :
    ((∃ srcs, perform iocStopped (stateOf n st) ops = .ok srcs) ↔ Fits n st.isSome ops) ∧
      ∀ srcs, perform iocStopped (stateOf n st) ops = .ok srcs → Ends n ops st srcs := by
  induction ops generalizing st with
  | nil =>
    refine ⟨by simp [perform, Fits], ?_⟩
    intro srcs h
    obtain rfl : stateOf n st = srcs := by simpa [perform] using h
    cases st with
    | none => exact .inl rfl
    | some k => exact .inr ⟨k, .inl rfl, rfl⟩
  | cons op ops ih =>
    cases op with
    | start threads =>
      cases st with
      | none =>
        by_cases hk : n ≤ threads
        · have hst' : ∀ k ∈ some threads, n ≤ k := by simpa using hk
          obtain ⟨hiff, hends⟩ := ih hst'
          rw [perform_start_idle hk]
          exact ⟨by simp [hiff, Fits, hk], fun srcs h => (hends srcs h).start⟩
        · simp [perform_start_few hk, Fits, hk]
      | some k =>
        refine ⟨by simp [perform_start_busy hn, Fits], ?_⟩
        exact fun srcs h => absurd h (perform_start_busy hn)
    | join =>
      have hst' : ∀ k ∈ (none : Option ℕ), n ≤ k := by simp
      obtain ⟨hiff, hends⟩ := ih hst'
      rw [perform_join hrun hn hst]
      exact ⟨hiff, fun srcs h => (hends srcs h).join⟩

/-- Calls of `start` and `join` meet every assertion, those of the contexts too, exactly when each
`start` has a thread for each context and finds the pool joined. The contexts then share all of the
threads evenly, or have none. -/
theorem start_join (hrun : RunStops iocStopped) (hn : 1 ≤ n) :
    ((∃ srcs, perform iocStopped (idle n) ops = .ok srcs) ↔ Fits n false ops) ∧
      ∀ srcs, perform iocStopped (idle n) ops = .ok srcs → srcs = idle n ∨
        ∃ k, .start k ∈ ops ∧ srcs = busy n k ∧ (srcs.map MtIocSrc.threads).sum = k := by
  obtain ⟨hiff, hends⟩ := @perform_iff n ops iocStopped none hrun hn (by simp)
  refine ⟨hiff, ?_⟩
  intro srcs h
  rcases hends srcs h with h | ⟨k, hk, rfl⟩
  · exact .inl h
  · refine .inr ⟨k, ?_, rfl, ?_⟩
    · rcases hk with hk | hk
      · cases hk
      · exact hk
    · rw [busy, List.map_map]
      exact sum_share hn

theorem start_join_three :
    ∃ srcs, perform (fun k => k ≠ 0) (idle 2) [.start 3, .join, .start 2] = .ok srcs :=
  have hrun : RunStops fun k => k ≠ 0 := by simp [RunStops]
  (start_join hrun (by decide)).1.2 (by simp [Fits])

end Jkl.IocPool
