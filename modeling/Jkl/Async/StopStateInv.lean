import Jkl.Async.StopState
import Mathlib.Data.Nat.Bitwise

/-! What holds of the stop state between any two steps: what every call knows where it is, and
what the word, the list and the callbacks have to do with it. -/
namespace Jkl.StopState

/-- The word with these bits and counts. -/
def pack (requested locked : Bool) (tokens sources : ℕ) : ℕ :=
  requested.toNat + 2 * locked.toNat + 4 * tokens + sourceRefIncrement * sources

section Pack

variable {r l : Bool} {m n : ℕ}

theorem pack_eq_bit : pack r l m n = Nat.bit r (Nat.bit l (m + 2 ^ 31 * n)) := by
  simp only [pack, Nat.bit_val, sourceRefIncrement]
  omega

theorem lockedFlag_eq_bit : lockedFlag = Nat.bit false (Nat.bit true 0) := rfl

theorem stopRequestedFlag_eq_bit : stopRequestedFlag = Nat.bit true 0 := rfl

@[simp] theorem isLocked_pack : isLocked (pack r l m n) = l := by
  rw [isLocked, pack_eq_bit, lockedFlag_eq_bit, Nat.land_bit, Nat.land_bit]
  cases l <;> simp [Nat.bit_val]

@[simp] theorem isStopRequested_pack : isStopRequested (pack r l m n) = r := by
  rw [isStopRequested, pack_eq_bit, stopRequestedFlag_eq_bit, Nat.land_bit]
  cases r <;> simp [Nat.bit_val]

theorem pack_or_locked : pack r false m n ||| lockedFlag = pack r true m n := by
  rw [pack_eq_bit, pack_eq_bit, lockedFlag_eq_bit, Nat.lor_bit, Nat.lor_bit]
  simp

theorem pack_or_requested :
    pack false false m n ||| stopRequestedFlag ||| lockedFlag = pack true true m n := by
  have hor : pack false false m n ||| stopRequestedFlag = pack true false m n := by
    rw [pack_eq_bit, pack_eq_bit, stopRequestedFlag_eq_bit, Nat.lor_bit]
    simp
  rw [hor, pack_or_locked]

theorem pack_lt (hm : m < 2 ^ 31) (hn : n < 2 ^ 31) : pack r l m n < 2 ^ 64 := by
  have hr := r.toNat_le
  have hl := l.toNat_le
  simp only [pack, sourceRefIncrement]
  omega

theorem sub64_of_add {a b c : ℕ} (h : a = c + b) (hc : c < 2 ^ 64) (hb : b ≤ 2 ^ 64) :
    sub64 a b = c := by
  simp only [sub64]
  omega

theorem pack_unlock (hm : m < 2 ^ 31) (hn : n < 2 ^ 31) :
    sub64 (pack r true m n) lockedFlag = pack r false m n := by
  apply sub64_of_add _ (pack_lt hm hn) (by decide)
  simp only [pack, lockedFlag, Bool.toNat_true, Bool.toNat_false]
  omega

theorem pack_unlock_increment (hm : m + 1 < 2 ^ 31) (hn : n < 2 ^ 31) :
    sub64 (pack r true m n) (sub64 lockedFlag tokenRefIncrement) = pack r false (m + 1) n := by
  have h := pack_lt (r := r) (l := false) hm hn
  simp only [pack, sourceRefIncrement, Bool.toNat_false] at h
  simp only [sub64, pack, lockedFlag, tokenRefIncrement, sourceRefIncrement, Bool.toNat_true,
    Bool.toNat_false]
  omega

theorem pack_unlock_decrement (hm : m < 2 ^ 31) (hn : n < 2 ^ 31) :
    sub64 (pack r true (m + 1) n) (lockedFlag + tokenRefIncrement) = pack r false m n := by
  apply sub64_of_add _ (pack_lt hm hn) (by decide)
  simp only [pack, lockedFlag, tokenRefIncrement, Bool.toNat_true, Bool.toNat_false]
  omega

theorem pack_add_token (hm : m + 1 < 2 ^ 31) (hn : n < 2 ^ 31) :
    add64 (pack r l m n) tokenRefIncrement = pack r l (m + 1) n := by
  have h := pack_lt (r := r) (l := l) hm hn
  simp only [add64, pack, tokenRefIncrement] at *
  omega

theorem pack_add_source (hm : m < 2 ^ 31) (hn : n + 1 < 2 ^ 31) :
    add64 (pack r l m n) sourceRefIncrement = pack r l m (n + 1) := by
  have h := pack_lt (r := r) (l := l) hm hn
  simp only [add64, pack] at *
  rw [Nat.mul_succ] at h ⊢
  omega

theorem pack_sub_token (hm : m < 2 ^ 31) (hn : n < 2 ^ 31) :
    sub64 (pack r l (m + 1) n) tokenRefIncrement = pack r l m n := by
  apply sub64_of_add _ (pack_lt hm hn) (by decide)
  simp only [pack, tokenRefIncrement]
  omega

theorem pack_sub_source (hm : m < 2 ^ 31) (hn : n < 2 ^ 31) :
    sub64 (pack r l m (n + 1)) sourceRefIncrement = pack r l m n := by
  apply sub64_of_add _ (pack_lt hm hn) (by decide)
  simp only [pack, Nat.mul_succ]
  omega

/-- The old word of a decrement says whether the reference was the last one. -/
theorem pack_lt_two_tokens :
    pack r l (m + 1) n < tokenRefIncrement + tokenRefIncrement ↔ m = 0 ∧ n = 0 := by
  have hr := r.toNat_le
  have hl := l.toNat_le
  simp only [pack, tokenRefIncrement, sourceRefIncrement]
  omega

theorem pack_lt_locked_two_tokens :
    pack r true (m + 1) n < lockedFlag + tokenRefIncrement + tokenRefIncrement ↔
      m = 0 ∧ n = 0 := by
  have hr := r.toNat_le
  simp only [pack, lockedFlag, tokenRefIncrement, sourceRefIncrement, Bool.toNat_true]
  omega

theorem pack_lt_token_source :
    pack r l m (n + 1) < tokenRefIncrement + sourceRefIncrement ↔ m = 0 ∧ n = 0 := by
  have hr := r.toNat_le
  have hl := l.toNat_le
  simp only [pack, tokenRefIncrement, sourceRefIncrement]
  omega

end Pack

namespace Frame

variable {C K : Type}

/-- The callback whose constructor or destructor the call belongs to. -/
def object : Frame C K → Option C
  | .tryAdd _ cb _ | .executing _ cb | .push _ cb | .unlockAdded _ cb | .added _ cb
  | .lockToRemove cb _ | .unlink cb | .unlockRemoved cb | .unlockNotFound cb | .checkThread cb
  | .awaitFinished cb | .removeReference cb | .destroyed cb => some cb
  | .deleteState cb => cb
  | _ => none

/-- The lock is held here. -/
def locked : Frame C K → Bool
  | .setThread .. | .dequeue .. | .unlockToRun .. | .unlockToReturn .. | .push ..
  | .unlockAdded .. | .unlink .. | .unlockRemoved .. | .unlockNotFound .. => true
  | _ => false

/-- This `__request_stop` is the one that set the flag. -/
def winning : Frame C K → Bool
  | .setThread .. | .dequeue .. | .unlockToRun .. | .mark .. | .running .. | .clearRemoved ..
  | .storeFinished .. | .relock .. | .unlockToReturn .. => true
  | _ => false

/-- The callback that `__request_stop` has taken out of the list. -/
def serves : Frame C K → Option C
  | .unlockToRun _ cb _ | .mark _ cb _ | .running _ cb _ _ | .clearRemoved _ cb _ _
  | .storeFinished _ cb _ _ => some cb
  | _ => none

def deletes : Frame C K → Bool
  | .deleteState _ => true
  | _ => false

end Frame

namespace State

variable {T C K : Type} (s s' : State T C K)

/-- Nobody but its constructor knows of the callback. -/
structure Blank (cb : C) (n : ℕ) : Prop where
  starts : s.starts cb = n
  queue : cb ∉ s.queue
  current : s.current ≠ some cb
  cell : ∃ x, s.links.cell cb = some x ∧ x.prev = none ∧ x.data = ⟨none, false, false⟩

/-- Nobody will find the callback any more. -/
structure Loose (cb : C) : Prop where
  cell : ∃ x, s.links.cell cb = some x
  queue : cb ∉ s.queue
  current : s.current ≠ some cb

/-- The callback is in the list, or `__request_stop` has it, or is through with it. -/
structure Registered (cb : C) (x : Intrusive.Cell C Callback) : Prop where
  cell : s.links.cell cb = some x
  somewhere : cb ∈ s.queue ∨ s.current = some cb ∨ x.data.callbackFinishedExecuting = true
  prev : cb ∉ s.queue → x.prev = none
  isRemoved : ∀ n, x.data.isRemoved = some n → s.current = some cb ∧ s.flags n = some false

/-- The thread's `__request_stop` has taken the callback out of the list and called it `n`
times, with `__isRemoved_` as given. -/
structure Serving (t : T) (cb : C) (anyMore : Bool) (isRemoved : Option ℕ) (n : ℕ) : Prop where
  winner : s.winner = some t
  thread : s.signallingThread = some t
  current : s.current = some cb
  last : anyMore = false → s.queue = []
  starts : s.starts cb = n
  cell : ∃ x, s.links.cell cb = some x ∧ x.data.isRemoved = isRemoved ∧
    x.data.callbackFinishedExecuting = false

/-- The callback that was called is destroyed, by the thread that called it. -/
structure Cut (t : T) (cb : C) (anyMore : Bool) (n : ℕ) : Prop where
  phase : s.phase cb = .destroying t ∨ s.phase cb = .dead
  winner : s.winner = some t
  thread : s.signallingThread = some t
  current : s.current = none
  last : anyMore = false → s.queue = []
  flag : s.flags n = some true

/-- The reference that a registration will need is there. -/
def HasToken (tk : Arg K) (cb : C) : Prop :=
  match tk with
  | .copied k => k ∈ s.tokens ∧ cb ∉ s.refs
  | .moved _ => cb ∈ s.refs

end State

/-- What a call of thread `t` knows at its place. -/
def Frame.Holds {T C K : Type} (s : State T C K) (t : T) : Frame C K → Prop
  | .signal k _ => k ∈ s.sources
  | .setThread k =>
    k ∈ s.sources ∧ s.holder = some t ∧ s.winner = some t ∧ s.current = none
  | .dequeue k => k ∈ s.sources ∧ s.holder = some t ∧ s.winner = some t ∧
      s.signallingThread = some t ∧ s.current = none
  | .unlockToRun k cb anyMore =>
    k ∈ s.sources ∧ s.holder = some t ∧ s.Serving t cb anyMore none 0
  | .mark k cb anyMore => k ∈ s.sources ∧ s.Serving t cb anyMore none 0
  | .running k cb anyMore n => k ∈ s.sources ∧
      (s.Serving t cb anyMore (some n) 1 ∧ s.flags n = some false ∨ s.Cut t cb anyMore n)
  | .clearRemoved k cb anyMore n =>
    k ∈ s.sources ∧ s.Serving t cb anyMore (some n) 1 ∧ s.flags n = some false
  | .storeFinished k cb anyMore _ => k ∈ s.sources ∧ s.Serving t cb anyMore none 1
  | .relock k _ => k ∈ s.sources ∧ s.winner = some t ∧ s.signallingThread = some t ∧
      s.current = none
  | .unlockToReturn k => k ∈ s.sources ∧ s.holder = some t ∧ s.winner = some t ∧
      s.current = none ∧ s.queue = []
  | .tryAdd tk cb _ => s.phase cb = .constructing t ∧ s.HasToken tk cb ∧ s.Blank cb 0
  | .executing tk cb => s.phase cb = .constructing t ∧ s.HasToken tk cb ∧ s.Blank cb 1
  | .push tk cb => s.phase cb = .constructing t ∧ s.HasToken tk cb ∧ s.Blank cb 0 ∧
      s.holder = some t ∧ s.winner = none
  | .unlockAdded tk cb => s.phase cb = .constructing t ∧ s.HasToken tk cb ∧ cb ∈ s.queue ∧
      s.holder = some t ∧ s.winner = none
  | .added _ cb => s.phase cb = .constructing t ∧ cb ∈ s.refs ∧ ∃ x, s.Registered cb x
  | .lockToRemove cb _ => s.phase cb = .destroying t ∧ cb ∈ s.refs ∧ ∃ x, s.Registered cb x
  | .unlink cb => s.phase cb = .destroying t ∧ cb ∈ s.refs ∧ (∃ x, s.Registered cb x) ∧
      s.holder = some t
  | .unlockRemoved cb => s.phase cb = .destroying t ∧ cb ∈ s.refs ∧ s.Loose cb ∧
      s.holder = some t
  | .unlockNotFound cb => s.phase cb = .destroying t ∧ cb ∈ s.refs ∧
      (∃ x, s.Registered cb x) ∧ cb ∉ s.queue ∧ s.holder = some t
  | .checkThread cb => s.phase cb = .destroying t ∧ cb ∈ s.refs ∧ (∃ x, s.Registered cb x) ∧
      cb ∉ s.queue
  | .awaitFinished cb => s.phase cb = .destroying t ∧ cb ∈ s.refs ∧ (∃ x, s.Registered cb x) ∧
      cb ∉ s.queue ∧ ∃ u, u ≠ t ∧ s.winner = some u
  | .removeReference cb => s.phase cb = .destroying t ∧ cb ∈ s.refs ∧ s.Loose cb
  | .deleteState o => s.deleter = some t ∧ s.deleted = false ∧
      ∀ cb, o = some cb → s.phase cb = .destroying t ∧ cb ∉ s.refs ∧ s.Loose cb
  | .destroyed cb => s.phase cb = .destroying t ∧ cb ∉ s.refs ∧ s.Loose cb

namespace State

variable {T C K : Type}

/-- The callback is constructed, and registered if it says so. -/
def Settled (s : State T C K) (cb : C) : Prop :=
  ∃ x, s.links.cell cb = some x ∧
    (x.data.state = true → cb ∈ s.refs ∧ ∃ y, s.Registered cb y) ∧
    (x.data.state = false → cb ∉ s.refs ∧ s.Loose cb)

/-- What holds of a callback whatever the calls are. -/
structure CallbackOk (s : State T C K) (cb : C) : Prop where
  queued : cb ∈ s.queue → s.starts cb = 0 ∧ ∃ x, s.links.cell cb = some x ∧
    x.data.isRemoved = none ∧ x.data.callbackFinishedExecuting = false
  current : s.current = some cb → cb ∉ s.queue ∧ s.signallingThread ≠ none ∧
    ∃ x, s.links.cell cb = some x ∧ x.data.callbackFinishedExecuting = false
  unborn : s.phase cb = .unborn → s.links.cell cb = none ∧ cb ∉ s.refs ∧ s.starts cb = 0
  alive : s.phase cb = .alive → s.Settled cb
  dead : s.phase cb = .dead → s.links.cell cb = none
  starts : s.starts cb ≤ 1
  finished : ∀ x, s.links.cell cb = some x → x.data.callbackFinishedExecuting = true →
    s.starts cb = 1 ∧ s.signallingThread ≠ none

/-- What holds of the state whatever the calls are. -/
structure Shared (s : State T C K) : Prop where
  word : s.word = pack s.winner.isSome s.holder.isSome (s.tokens.length + s.refs.length)
    s.sources.length
  tokens : s.tokens.length + s.refs.length < 2 ^ 31
  sources : s.sources.length < 2 ^ 31
  links : s.links.Represents s.queue
  callback : ∀ cb, s.CallbackOk cb
  thread : ∀ t, s.signallingThread = some t → s.winner = some t
  refs : s.refs.Nodup
  deleter : s.deleter = none ↔ ¬ (s.tokens = [] ∧ s.sources = [] ∧ s.refs = [])
  deleted : s.deleted = true → s.deleter ≠ none
  wins : s.winner = none → s.wins = 0
  done : s.wins ≠ 0 → s.queue = [] ∧ s.current = none
  flags : ∀ n, s.nextFlag ≤ n → s.flags n = none

/-- What holds of the calls of a thread. -/
structure StackOk (s : State T C K) (t : T) (fs : List (Frame C K)) : Prop where
  holds : ∀ f ∈ fs, f.Holds s t
  below : ∀ f ∈ fs.tail, f.runs = true
  objects : (fs.filterMap Frame.object).Nodup
  winning : s.winner = some t → s.wins + fs.countP Frame.winning = 1
  notWinning : s.winner ≠ some t → fs.countP Frame.winning = 0
  serves : s.winner = some t → ∀ cb, s.current = some cb → ∃ f ∈ fs, f.serves = some cb
  locks : s.holder = some t → ∃ f ∈ fs.head?, f.locked = true
  deletes : s.deleter = some t → s.deleted = false → ∃ f ∈ fs.head?, f.deletes = true

structure Inv (s : State T C K) : Prop where
  shared : s.Shared
  stack : ∀ t, s.StackOk t (s.stack t)

section Keeps

variable (s s' : State T C K)

/-- What the step of another call leaves of a callback. -/
structure KeepsObject (cb : C) : Prop where
  phase : s'.phase cb = s.phase cb
  refs : cb ∈ s'.refs ↔ cb ∈ s.refs
  queue : cb ∉ s.queue → cb ∉ s'.queue
  blank : ∀ n, s.Blank cb n → s'.Blank cb n
  loose : s.Loose cb → s'.Loose cb
  registered : ∀ x, s.Registered cb x → ∃ y, s'.Registered cb y
  cell : ∀ x, s.links.cell cb = some x →
    ∃ y, s'.links.cell cb = some y ∧ y.data.state = x.data.state

/-- What the step of another call leaves of the `__request_stop` that set the flag. -/
structure KeepsRun : Prop where
  thread : s'.signallingThread = s.signallingThread
  current : s'.current = s.current
  flags : s'.flags = s.flags
  queue : s.queue = [] → s'.queue = []
  served : ∀ cb, s.current = some cb → s'.starts cb = s.starts cb ∧
    ∀ x, s.links.cell cb = some x → ∃ y, s'.links.cell cb = some y ∧
      y.data.isRemoved = x.data.isRemoved ∧
      y.data.callbackFinishedExecuting = x.data.callbackFinishedExecuting

/-- The callback that is called is told that it is destroyed. -/
structure CutsRun : Prop where
  thread : s'.signallingThread = s.signallingThread
  queue : s'.queue = s.queue
  current : s'.current = none
  flag : ∃ cb x n t, s.current = some cb ∧ s.links.cell cb = some x ∧
    x.data.isRemoved = some n ∧ s'.flags n = some true ∧ s.signallingThread = some t ∧
    s'.phase cb = .destroying t

/-- What the step of another call leaves of what a call knows. -/
structure Keeps (f : Frame C K) : Prop where
  source : ∀ k, f.handle = some k → k ∈ s.sources → k ∈ s'.sources
  token : ∀ k, f.handle = some k → k ∈ s.tokens → k ∈ s'.tokens
  lock : f.locked = true → s'.holder = s.holder ∧ s'.winner = s.winner ∧ s'.queue = s.queue
  winner : ∀ t, s.winner = some t → s'.winner = some t
  run : f.winning = true → KeepsRun s s' ∨ f.runs = true ∧ CutsRun s s'
  object : ∀ cb, f.object = some cb → KeepsObject s s' cb
  deletes : f.deletes = true → s'.deleter = s.deleter ∧ s'.deleted = s.deleted
  gone : ∀ cb t, s.phase cb = .destroying t ∨ s.phase cb = .dead →
    s'.phase cb = .destroying t ∨ s'.phase cb = .dead

variable {s s'} {t : T} {f : Frame C K}

theorem Serving.keeps {cb : C} {anyMore : Bool} {o : Option ℕ} {n : ℕ}
    (h : s.Serving t cb anyMore o n) (hw : ∀ t, s.winner = some t → s'.winner = some t)
    (hk : KeepsRun s s') : s'.Serving t cb anyMore o n where
  winner := hw t h.winner
  thread := hk.thread.trans h.thread
  current := hk.current.trans h.current
  last hm := hk.queue (h.last hm)
  starts := (hk.served cb h.current).1.trans h.starts
  cell := by
    obtain ⟨x, hx, hr, hf⟩ := h.cell
    obtain ⟨y, hy, hyr, hyf⟩ := (hk.served cb h.current).2 x hx
    exact ⟨y, hy, hyr.trans hr, hyf.trans hf⟩

theorem HasToken.keeps {tk : Arg K} {cb : C} (h : s.HasToken tk cb)
    (ht : ∀ k, tk = .copied k → k ∈ s.tokens → k ∈ s'.tokens)
    (hr : cb ∈ s'.refs ↔ cb ∈ s.refs) : s'.HasToken tk cb := by
  cases tk with
  | copied k => exact ⟨ht k rfl h.1, hr.not.2 h.2⟩
  | moved k => exact hr.2 h

theorem Keeps.keepsRun (hk : Keeps s s' f) (hw : f.winning = true) (hr : f.runs = false) :
    KeepsRun s s' :=
  (hk.run hw).resolve_right fun h => by simp [hr] at h

theorem Keeps.hasToken {tk : Arg K} {cb : C} (hk : Keeps s s' f) (h : s.HasToken tk cb)
    (hf : ∀ k, tk = .copied k → f.handle = some k) (ho : KeepsObject s s' cb) :
    s'.HasToken tk cb :=
  h.keeps (fun k htk => hk.token k (hf k htk)) ho.refs

theorem KeepsObject.exists_registered {cb : C} (ho : KeepsObject s s' cb)
    (h : ∃ x, s.Registered cb x) : ∃ y, s'.Registered cb y := by
  obtain ⟨x, hx⟩ := h
  exact ho.registered x hx

/-- What a call knows it still knows after the step of another one. -/
theorem Keeps.holds (hk : Keeps s s' f) (h : f.Holds s t) : f.Holds s' t := by
  cases f with
  | signal k old => exact hk.source k rfl h
  | setThread k =>
    obtain ⟨hs, hh, hw, hc⟩ := h
    exact ⟨hk.source k rfl hs, (hk.lock rfl).1.trans hh, hk.winner t hw,
      (hk.keepsRun rfl rfl).current.trans hc⟩
  | dequeue k =>
    obtain ⟨hs, hh, hw, ht, hc⟩ := h
    have hr : KeepsRun s s' := hk.keepsRun rfl rfl
    exact ⟨hk.source k rfl hs, (hk.lock rfl).1.trans hh, hk.winner t hw, hr.thread.trans ht,
      hr.current.trans hc⟩
  | unlockToRun k cb anyMore =>
    obtain ⟨hs, hh, hr⟩ := h
    exact ⟨hk.source k rfl hs, (hk.lock rfl).1.trans hh,
      hr.keeps hk.winner (hk.keepsRun rfl rfl)⟩
  | mark k cb anyMore =>
    exact ⟨hk.source k rfl h.1, h.2.keeps hk.winner (hk.keepsRun rfl rfl)⟩
  | running k cb anyMore n =>
    obtain ⟨hs, hr⟩ := h
    apply And.intro (hk.source k rfl hs)
    rcases hk.run rfl with hkr | ⟨-, hcut⟩
    · rcases hr with ⟨hr, hf⟩ | hr
      · exact .inl ⟨hr.keeps hk.winner hkr, hkr.flags ▸ hf⟩
      · exact .inr ⟨hk.gone cb t hr.phase, hk.winner t hr.winner, hkr.thread.trans hr.thread,
          hkr.current.trans hr.current, fun hm => hkr.queue (hr.last hm), hkr.flags ▸ hr.flag⟩
    · obtain ⟨cb', x, n', t', hc, hx, hn, hf, ht', hp⟩ := hcut.flag
      rcases hr with ⟨hr, -⟩ | hr
      · -- the flag that is set is the one of this call
        obtain rfl : cb = cb' := Option.some.inj (hr.current.symm.trans hc)
        obtain ⟨y, hy, hy', -⟩ := hr.cell
        obtain rfl : x = y := Option.some.inj (hx.symm.trans hy)
        obtain rfl : n' = n := Option.some.inj (hn.symm.trans hy')
        obtain rfl : t = t' := Option.some.inj (hr.thread.symm.trans ht')
        exact .inr ⟨.inl hp, hk.winner t hr.winner, hcut.thread.trans hr.thread, hcut.current,
          fun hm => hcut.queue.trans (hr.last hm), hf⟩
      · simp [hr.current] at hc
  | clearRemoved k cb anyMore n =>
    obtain ⟨hs, hr, hf⟩ := h
    have hkr : KeepsRun s s' := hk.keepsRun rfl rfl
    exact ⟨hk.source k rfl hs, hr.keeps hk.winner hkr, hkr.flags ▸ hf⟩
  | storeFinished k cb anyMore n =>
    exact ⟨hk.source k rfl h.1, h.2.keeps hk.winner (hk.keepsRun rfl rfl)⟩
  | relock k old =>
    obtain ⟨hs, hw, ht, hc⟩ := h
    have hr : KeepsRun s s' := hk.keepsRun rfl rfl
    exact ⟨hk.source k rfl hs, hk.winner t hw, hr.thread.trans ht, hr.current.trans hc⟩
  | unlockToReturn k =>
    obtain ⟨hs, hh, hw, hc, hq⟩ := h
    have hr : KeepsRun s s' := hk.keepsRun rfl rfl
    exact ⟨hk.source k rfl hs, (hk.lock rfl).1.trans hh, hk.winner t hw, hr.current.trans hc,
      hr.queue hq⟩
  | tryAdd tk cb old =>
    obtain ⟨hp, ht, hb⟩ := h
    have ho : KeepsObject s s' cb := hk.object cb rfl
    exact ⟨ho.phase.trans hp, hk.hasToken ht (fun k htk => htk ▸ rfl) ho, ho.blank 0 hb⟩
  | executing tk cb =>
    obtain ⟨hp, ht, hb⟩ := h
    have ho : KeepsObject s s' cb := hk.object cb rfl
    exact ⟨ho.phase.trans hp, hk.hasToken ht (fun k htk => htk ▸ rfl) ho, ho.blank 1 hb⟩
  | push tk cb =>
    obtain ⟨hp, ht, hb, hh, hw⟩ := h
    have ho : KeepsObject s s' cb := hk.object cb rfl
    have hl := hk.lock rfl
    exact ⟨ho.phase.trans hp, hk.hasToken ht (fun k htk => htk ▸ rfl) ho, ho.blank 0 hb,
      hl.1.trans hh, hl.2.1.trans hw⟩
  | unlockAdded tk cb =>
    obtain ⟨hp, ht, hq, hh, hw⟩ := h
    have ho : KeepsObject s s' cb := hk.object cb rfl
    have hl := hk.lock rfl
    exact ⟨ho.phase.trans hp, hk.hasToken ht (fun k htk => htk ▸ rfl) ho, hl.2.2 ▸ hq,
      hl.1.trans hh, hl.2.1.trans hw⟩
  | added tk cb =>
    obtain ⟨hp, hr, hx⟩ := h
    have ho : KeepsObject s s' cb := hk.object cb rfl
    exact ⟨ho.phase.trans hp, ho.refs.2 hr, ho.exists_registered hx⟩
  | lockToRemove cb old =>
    obtain ⟨hp, hr, hx⟩ := h
    have ho : KeepsObject s s' cb := hk.object cb rfl
    exact ⟨ho.phase.trans hp, ho.refs.2 hr, ho.exists_registered hx⟩
  | unlink cb =>
    obtain ⟨hp, hr, hx, hh⟩ := h
    have ho : KeepsObject s s' cb := hk.object cb rfl
    exact ⟨ho.phase.trans hp, ho.refs.2 hr, ho.exists_registered hx, (hk.lock rfl).1.trans hh⟩
  | unlockRemoved cb =>
    obtain ⟨hp, hr, hl, hh⟩ := h
    have ho : KeepsObject s s' cb := hk.object cb rfl
    exact ⟨ho.phase.trans hp, ho.refs.2 hr, ho.loose hl, (hk.lock rfl).1.trans hh⟩
  | unlockNotFound cb =>
    obtain ⟨hp, hr, hx, hq, hh⟩ := h
    have ho : KeepsObject s s' cb := hk.object cb rfl
    exact ⟨ho.phase.trans hp, ho.refs.2 hr, ho.exists_registered hx, ho.queue hq, (hk.lock rfl).1.trans hh⟩
  | checkThread cb =>
    obtain ⟨hp, hr, hx, hq⟩ := h
    have ho : KeepsObject s s' cb := hk.object cb rfl
    exact ⟨ho.phase.trans hp, ho.refs.2 hr, ho.exists_registered hx, ho.queue hq⟩
  | awaitFinished cb =>
    obtain ⟨hp, hr, hx, hq, u, hu, hw⟩ := h
    have ho : KeepsObject s s' cb := hk.object cb rfl
    exact ⟨ho.phase.trans hp, ho.refs.2 hr, ho.exists_registered hx, ho.queue hq, u, hu, hk.winner u hw⟩
  | removeReference cb =>
    obtain ⟨hp, hr, hl⟩ := h
    have ho : KeepsObject s s' cb := hk.object cb rfl
    exact ⟨ho.phase.trans hp, ho.refs.2 hr, ho.loose hl⟩
  | deleteState o =>
    obtain ⟨hd, hn, hcb⟩ := h
    have hk' := hk.deletes rfl
    refine ⟨hk'.1.trans hd, hk'.2.trans hn, ?_⟩
    rintro cb rfl
    have ho : KeepsObject s s' cb := hk.object cb rfl
    obtain ⟨hp, hr, hl⟩ := hcb cb rfl
    exact ⟨ho.phase.trans hp, ho.refs.not.2 hr, ho.loose hl⟩
  | destroyed cb =>
    obtain ⟨hp, hr, hl⟩ := h
    have ho : KeepsObject s s' cb := hk.object cb rfl
    exact ⟨ho.phase.trans hp, ho.refs.not.2 hr, ho.loose hl⟩

theorem KeepsObject.of_eq {cb : C} (hl : s'.links = s.links) (hq : s'.queue = s.queue)
    (hc : s'.current = s.current) (hf : s'.flags = s.flags) (hs : s'.starts = s.starts)
    (hp : s'.phase cb = s.phase cb) (hr : cb ∈ s'.refs ↔ cb ∈ s.refs) : KeepsObject s s' cb where
  phase := hp
  refs := hr
  queue h := hq ▸ h
  blank _ h := ⟨hs ▸ h.starts, hq ▸ h.queue, hc ▸ h.current, hl ▸ h.cell⟩
  loose h := ⟨hl ▸ h.cell, hq ▸ h.queue, hc ▸ h.current⟩
  registered x h := ⟨x, ⟨hl ▸ h.cell, hq ▸ hc ▸ h.somewhere, hq ▸ h.prev,
    hc ▸ hf ▸ h.isRemoved⟩⟩
  cell x hx := ⟨x, hl ▸ hx, rfl⟩

/-- The step is about another callback. -/
theorem KeepsObject.of_cell {cb : C} (hl : s'.links.cell cb = s.links.cell cb)
    (hq : cb ∈ s'.queue ↔ cb ∈ s.queue) (hc : s'.current = some cb ↔ s.current = some cb)
    (hf : s.current = some cb → ∀ n, s.flags n = some false → s'.flags n = some false)
    (hs : s'.starts cb = s.starts cb) (hp : s'.phase cb = s.phase cb)
    (hr : cb ∈ s'.refs ↔ cb ∈ s.refs) : KeepsObject s s' cb where
  phase := hp
  refs := hr
  queue h := hq.not.2 h
  blank _ h := ⟨hs.trans h.starts, hq.not.2 h.queue, hc.not.2 h.current, hl ▸ h.cell⟩
  loose h := ⟨hl ▸ h.cell, hq.not.2 h.queue, hc.not.2 h.current⟩
  registered x h := ⟨x, hl.trans h.cell, by rw [hq, hc]; exact h.somewhere,
    fun hmem => h.prev (hq.not.1 hmem),
    fun n hn => ⟨hc.2 (h.isRemoved n hn).1, hf (h.isRemoved n hn).1 n (h.isRemoved n hn).2⟩⟩
  cell x hx := ⟨x, hl.trans hx, rfl⟩

theorem KeepsRun.of_eq (ht : s'.signallingThread = s.signallingThread) (hl : s'.links = s.links)
    (hq : s'.queue = s.queue) (hc : s'.current = s.current) (hf : s'.flags = s.flags)
    (hs : s'.starts = s.starts) : KeepsRun s s' where
  thread := ht
  current := hc
  flags := hf
  queue h := hq.trans h
  served _ _ := ⟨hs ▸ rfl, fun x hx => ⟨x, hl ▸ hx, rfl, rfl⟩⟩

/-- The step changes neither the list nor the callbacks. -/
theorem Keeps.of_eq (ht : s'.signallingThread = s.signallingThread) (hl : s'.links = s.links)
    (hq : s'.queue = s.queue) (hc : s'.current = s.current) (hf : s'.flags = s.flags)
    (hs : s'.starts = s.starts) (hp : s'.phase = s.phase) (hr : s'.refs = s.refs)
    (hsource : ∀ k, f.handle = some k → k ∈ s.sources → k ∈ s'.sources)
    (htoken : ∀ k, f.handle = some k → k ∈ s.tokens → k ∈ s'.tokens)
    (hlock : f.locked = true → s'.holder = s.holder ∧ s'.winner = s.winner)
    (hwinner : ∀ t, s.winner = some t → s'.winner = some t)
    (hdel : f.deletes = true → s'.deleter = s.deleter ∧ s'.deleted = s.deleted) :
    Keeps s s' f where
  source := hsource
  token := htoken
  gone _ _ h := hp ▸ h
  lock h := ⟨(hlock h).1, (hlock h).2, hq⟩
  winner := hwinner
  run _ := .inl (.of_eq ht hl hq hc hf hs)
  object _ _ := .of_eq hl hq hc hf hs (by rw [hp]) (by rw [hr])
  deletes := hdel

theorem Keeps.refl : Keeps s s f :=
  .of_eq rfl rfl rfl rfl rfl rfl rfl rfl (fun _ _ => id) (fun _ _ => id) (fun _ => ⟨rfl, rfl⟩)
    (fun _ => id) fun _ => ⟨rfl, rfl⟩

theorem KeepsObject.settled {cb : C} (hk : KeepsObject s s' cb) (h : s.Settled cb) :
    s'.Settled cb := by
  obtain ⟨x, hx, hreg, hloose⟩ := h
  obtain ⟨y, hy, hstate⟩ := hk.cell x hx
  refine ⟨y, hy, ?_, ?_⟩
  · intro hs
    obtain ⟨hr, z, hz⟩ := hreg (hstate ▸ hs)
    exact ⟨hk.refs.2 hr, hk.registered z hz⟩
  · intro hs
    obtain ⟨hr, hl⟩ := hloose (hstate ▸ hs)
    exact ⟨hk.refs.not.2 hr, hk.loose hl⟩

theorem CallbackOk.of_data {cb : C} (h : s.CallbackOk cb) (hk : KeepsObject s s' cb)
    (hdata : (s'.links.cell cb).map Intrusive.Cell.data =
      (s.links.cell cb).map Intrusive.Cell.data)
    (hq : cb ∈ s'.queue → cb ∈ s.queue) (hc : s'.current = some cb → s.current = some cb)
    (hs : s'.starts cb = s.starts cb)
    (hset : s.signallingThread ≠ none → s'.signallingThread ≠ none) : s'.CallbackOk cb := by
  have hcell : ∀ x, s.links.cell cb = some x → ∃ y, s'.links.cell cb = some y ∧
      y.data = x.data := by
    intro x hx
    rw [hx] at hdata
    simpa using hdata
  constructor
  · intro hmem
    obtain ⟨hzero, x, hx, hr, hf⟩ := h.queued (hq hmem)
    obtain ⟨y, hy, hd⟩ := hcell x hx
    exact ⟨hs.trans hzero, y, hy, hd ▸ hr, hd ▸ hf⟩
  · intro hcur
    obtain ⟨hnot, ht, x, hx, hf⟩ := h.current (hc hcur)
    obtain ⟨y, hy, hd⟩ := hcell x hx
    exact ⟨hk.queue hnot, hset ht, y, hy, hd ▸ hf⟩
  · intro hp
    obtain ⟨hnone, hr, hzero⟩ := h.unborn (hk.phase.symm.trans hp)
    exact ⟨by simpa [hnone] using hdata, hk.refs.not.2 hr, hs.trans hzero⟩
  · intro hp
    exact hk.settled (h.alive (hk.phase.symm.trans hp))
  · intro hp
    simpa [h.dead (hk.phase.symm.trans hp)] using hdata
  · exact hs ▸ h.starts
  · intro y hy hf
    obtain ⟨x, hx, hd⟩ : ∃ x, s.links.cell cb = some x ∧ x.data = y.data := by
      rw [hy] at hdata
      simpa using hdata.symm
    obtain ⟨hone, ht⟩ := h.finished x hx (hd ▸ hf)
    exact ⟨hs.trans hone, hset ht⟩

/-- The step changes neither the list nor the callbacks. -/
theorem Shared.of_eq (h : s.Shared) (hl : s'.links = s.links) (hq : s'.queue = s.queue)
    (hc : s'.current = s.current) (hf : s'.flags = s.flags) (hn : s'.nextFlag = s.nextFlag)
    (hs : s'.starts = s.starts) (hp : s'.phase = s.phase) (hrefs : s'.refs = s.refs)
    (hword : s'.word = pack s'.winner.isSome s'.holder.isSome
      (s'.tokens.length + s'.refs.length) s'.sources.length)
    (htok : s'.tokens.length + s'.refs.length < 2 ^ 31) (hsrc : s'.sources.length < 2 ^ 31)
    (hthread : ∀ t, s'.signallingThread = some t → s'.winner = some t)
    (hset : s.signallingThread ≠ none → s'.signallingThread ≠ none)
    (hdel : s'.deleter = none ↔ ¬ (s'.tokens = [] ∧ s'.sources = [] ∧ s'.refs = []))
    (hdeleted : s'.deleted = true → s'.deleter ≠ none)
    (hwins : s'.winner = none → s'.wins = 0)
    (hdone : s'.wins ≠ 0 → s.queue = [] ∧ s.current = none) : s'.Shared where
  word := hword
  tokens := htok
  sources := hsrc
  links := hl ▸ hq ▸ h.links
  callback cb := (h.callback cb).of_data
    (.of_eq hl hq hc hf hs (by rw [hp]) (by rw [hrefs])) (by rw [hl]) (by simp [hq])
    (by simp [hc]) (by rw [hs]) hset
  thread := hthread
  refs := hrefs ▸ h.refs
  deleter := hdel
  deleted := hdeleted
  wins := hwins
  done := hq ▸ hc ▸ hdone
  flags := hn ▸ hf ▸ h.flags

/-- The calls of a thread that took no step. -/
theorem StackOk.keeps {fs : List (Frame C K)} (h : s.StackOk t fs)
    (hk : ∀ f ∈ fs, Keeps s s' f) (hw : s'.winner = some t ↔ s.winner = some t)
    (hwins : s.winner = some t → s'.wins = s.wins)
    (hc : s.winner = some t → s'.current = s.current)
    (hh : s'.holder = some t → s.holder = some t)
    (hd : s'.deleter = some t → s'.deleted = false →
      s.deleter = some t ∧ s.deleted = false) : s'.StackOk t fs where
  holds f hf := (hk f hf).holds (h.holds f hf)
  below := h.below
  objects := h.objects
  winning hw' := hwins (hw.1 hw') ▸ h.winning (hw.1 hw')
  notWinning hw' := h.notWinning fun heq => hw' (hw.2 heq)
  serves hw' cb hcb := h.serves (hw.1 hw') cb (hc (hw.1 hw') ▸ hcb)
  locks hh' := h.locks (hh hh')
  deletes hd' hn := h.deletes (hd hd' hn).1 (hd hd' hn).2

end Keeps

end State

end Jkl.StopState
