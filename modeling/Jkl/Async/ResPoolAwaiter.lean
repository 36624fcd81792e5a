import Jkl.Async.ResPoolQueue

/-! The storage of a `res_pool` awaiter. `await_suspend` goes on setting it up after the lock
has been released, while the awaiter can already be completed; once a resume of its coroutine
has run the awaiter is gone. -/
namespace Jkl.Async.ResPool

variable {ι : Type*}

/-- What `await_suspend` still does with the awaiter after it has queued it: it starts the wait
of `_timer`, constructs the stop callback, and stores that in `_stopCb`. -/
inductive SetUp where
  | asyncWait
  | registerStop
  | storeStop
  deriving DecidableEq, Repr

def Options.setUps (o : Options) : List SetUp :=
  (if o.hasExpiryDur then [.asyncWait] else []) ++
    if o.enableStop then [.registerStop, .storeStop] else []

/-- The pool with its users; what is left to do in the `await_suspend` of an awaiter; whether a
resume of its coroutine has run, and whether it was used after that. -/
structure Staged (ι : Type*) where
  base : State ι
  todo : ι → List SetUp
  resumed : ι → Bool
  stale : ι → Bool

inductive StagedEvent (ι : Type*) where
  | base (e : Event ι)
  | setUp (i : ι) (stopRequested : Bool)

namespace Staged

def init (cap : ℕ) : Staged ι :=
  { base := .init cap, todo := fun _ => [], resumed := fun _ => false, stale := fun _ => false }

variable [DecidableEq ι]

/-- A member of awaiter `i` is read or written. -/
def touch (i : ι) (s : Staged ι) : Staged ι :=
  { s with stale := Function.update s.stale i (s.stale i || s.resumed i) }

/-- `_coro.resume()`: the coroutine runs on and destroys the awaiter. -/
def resume (i : ι) (s : Staged ι) : Staged ι :=
  { s with resumed := Function.update s.resumed i true }

/-- What `remove_awaiter(_id)` answers. -/
def removes (s : Staged ι) (i : ι) : Bool :=
  (s.base.pool.removeAwaiter (s.base.waiters i).getId).2

/-- The timer handler: it has copies of the pool and the id, and uses the awaiter only if it
has removed it. -/
def timeout (i : ι) (b : State ι) (s : Staged ι) : Staged ι :=
  let removed := s.removes i
  let s := { s with base := b }
  if removed then (s.touch i).resume i else s

/-- The stop callback: it reads `_pool` and `_id`. -/
def stop (i : ι) (b : State ι) (s : Staged ι) : Staged ι :=
  let removed := s.removes i
  let s := { s with base := b }
  if removed then (s.touch i).resume i else s.touch i

/-- The awaiter at the front, whose `_id` is read by `recycle`. -/
def touchFront (s : Staged ι) : Staged ι :=
  match Pool.popLive s.base.pool.awaiterQueue with
  | none => s
  | some (i, _) => s.touch i

/-- The effect of a step of the pool on the awaiters; `b` is the state after it. -/
def follow (opts : ι → Options) (s : Staged ι) (b : State ι) : Event ι → Option (Staged ι)
  | .acquire i _ _ =>
    let todo := if (b.waiters i).id.isSome then (opts i).setUps else []
    some { s with base := b, todo := Function.update s.todo i todo }
  | .recycleLocked _ => some { s.touchFront with base := b }
  | .complete i _ => some { s.touch i with base := b }
  | .resume i _ => some { (s.touch i).resume i with base := b }
  | .timeout i => if .asyncWait ∈ s.todo i then none else some (s.timeout i b)
  | .stop i => if .registerStop ∈ s.todo i then none else some (s.stop i b)
  | _ => some { s with base := b }

/-- The next access of `await_suspend` to awaiter `i`. A callback that is constructed after the
stop request runs at once. -/
def setUp (hasRes : Bool) (opts : ι → Options) (i : ι) (stopRequested : Bool) (s : Staged ι) :
    Option (Staged ι) :=
  match s.todo i with
  | [] => none
  | a :: rest =>
    let s := { s with todo := Function.update s.todo i rest }
    if a = .registerStop ∧ stopRequested then
      match ResPool.step hasRes opts s.base (.stop i) with
      | some b => some (s.stop i b)
      -- the awaiter is gone already
      | none => some (s.touch i)
    else some (s.touch i)

def step (hasRes : Bool) (opts : ι → Options) (s : Staged ι) :
    StagedEvent ι → Option (Staged ι)
  | .base e => (ResPool.step hasRes opts s.base e).bind fun b => s.follow opts b e
  | .setUp i stopRequested => s.setUp hasRes opts i stopRequested

/-- The awaiter whose coroutine a step resumes. -/
def Resumes (s : Staged ι) (i : ι) : StagedEvent ι → Prop
  | .base (.resume j _) => j = i
  | .base (.timeout j) => j = i ∧ s.removes i = true
  | .base (.stop j) => j = i ∧ s.removes i = true
  | .setUp j stopRequested =>
    j = i ∧ stopRequested = true ∧ (s.todo i).head? = some .registerStop ∧
      (s.base.waiters i).stopCb = true ∧ s.removes i = true
  | _ => False

/-- A step resumes a coroutine whose awaiter is not set up yet. -/
def Early (s : Staged ι) (e : StagedEvent ι) : Prop := ∃ i, s.Resumes i e ∧ s.todo i ≠ []

end Staged

/-- One awaiter in a staged state: `pending` counts the completions on their way to a posted
resume, `done` all its completions. -/
structure Slot where
  todo : List SetUp
  resumed : Bool
  stale : Bool
  stopCb : Bool
  pending : ℕ
  done : ℕ

namespace Slot

/-- A member is used. -/
def touch (a : Slot) : Slot := { a with stale := a.stale || a.resumed }

/-- The coroutine is resumed, and the stop callback destroyed. -/
def resume (a : Slot) : Slot := { a.touch with resumed := true, stopCb := false }

/-- What a step does to one awaiter; the last argument tells whether it resumes it. -/
inductive Move (o : Options) : Slot → Slot → Bool → Prop where
  | stay (a : Slot) : Move o a a false
  | begin (a : Slot) (todo : List SetUp) (stopCb : Bool) (hdone : a.done = 0)
      (htodo : todo <:+ o.setUps) : Move o a { a with todo := todo, stopCb := stopCb } false
  | choose (a : Slot) (hdone : a.done = 0) :
      Move o a { a.touch with pending := a.pending + 1, done := a.done + 1 } false
  | complete (a : Slot) (hpending : 0 < a.pending) : Move o a a.touch false
  | resume (a : Slot) (n : ℕ) (hpending : a.pending = n + 1) :
      Move o a { a.resume with pending := n } true
  | giveUp (a : Slot) (hdone : a.done = 0) : Move o a { a.resume with done := a.done + 1 } true
  | refuse (a : Slot) (hstop : a.stopCb = true) : Move o a { a.touch with stopCb := false } false
  | setUp (a : Slot) (x : SetUp) (rest : List SetUp) (htodo : a.todo = x :: rest) :
      Move o a { a.touch with todo := rest } false
  | setUpRefuse (a : Slot) (rest : List SetUp) (htodo : a.todo = .registerStop :: rest)
      (hstop : a.stopCb = true) : Move o a { a.touch with todo := rest, stopCb := false } false
  | setUpGiveUp (a : Slot) (rest : List SetUp) (htodo : a.todo = .registerStop :: rest)
      (hstop : a.stopCb = true) (hdone : a.done = 0) :
      Move o a { a.resume with todo := rest, done := a.done + 1 } true

/-- Every completion is on its way or has resumed the coroutine, which destroys the callback. -/
structure Kept (o : Options) (a : Slot) : Prop where
  account : a.pending + a.resumed.toNat = a.done
  once : a.done ≤ 1
  off : a.resumed = true → a.stopCb = false
  todo : a.todo <:+ o.setUps

/-- The awaiter has not been used too late, and will not be by `await_suspend`. -/
def Fresh (a : Slot) : Prop := a.stale = false ∧ (a.resumed = true → a.todo = [])

variable {o : Options} {a b : Slot} {r : Bool}

theorem Kept.not_resumed (ha : a.Kept o) (h : a.done = 0 ∨ 0 < a.pending) : a.resumed = false := by
  have hacc := ha.account
  have honce := ha.once
  cases hr : a.resumed with
  | false => rfl
  | true =>
    rw [hr] at hacc
    simp only [Bool.toNat_true] at hacc
    omega

theorem Kept.not_resumed_of_stopCb (ha : a.Kept o) (h : a.stopCb = true) : a.resumed = false := by
  by_contra hr
  have := ha.off (by simpa using hr)
  simp [h] at this

theorem suffix_tail {x : SetUp} {rest l : List SetUp} (h : x :: rest <:+ l) : rest <:+ l :=
  (List.suffix_cons x rest).trans h

theorem Kept.move (ha : a.Kept o) (hm : Move o a b r) (honce : b.done ≤ 1) : b.Kept o := by
  obtain ⟨hacc, -, hoff, htodo⟩ := ha
  cases hm with
  | stay => exact ⟨hacc, honce, hoff, htodo⟩
  | begin todo stopCb hdone hsuf =>
    have hr : a.resumed = false := by
      cases hr : a.resumed with
      | false => rfl
      | true => simp [hr, hdone] at hacc
    exact ⟨hacc, honce, fun h => absurd h (by simp [hr]), hsuf⟩
  | choose hdone => exact ⟨by simp only [touch]; omega, honce, hoff, htodo⟩
  | complete => exact ⟨hacc, honce, hoff, htodo⟩
  | resume n hpending =>
    have hr : a.resumed = false := by
      have honce : a.done ≤ 1 := honce
      cases hr : a.resumed with
      | false => rfl
      | true => simp only [hr, Bool.toNat_true] at hacc; omega
    refine ⟨?_, honce, fun _ => rfl, htodo⟩
    simp only [hr, Bool.toNat_false] at hacc
    simp only [Slot.resume, touch, Bool.toNat_true]
    omega
  | giveUp hdone =>
    refine ⟨?_, honce, fun _ => rfl, htodo⟩
    simp only [Slot.resume, touch, Bool.toNat_true]
    omega
  | refuse hstop => exact ⟨hacc, honce, fun _ => rfl, htodo⟩
  | setUp x rest hx => exact ⟨hacc, honce, hoff, suffix_tail (hx ▸ htodo)⟩
  | setUpRefuse rest hx hstop => exact ⟨hacc, honce, fun _ => rfl, suffix_tail (hx ▸ htodo)⟩
  | setUpGiveUp rest hx hstop hdone =>
    refine ⟨?_, honce, fun _ => rfl, suffix_tail (hx ▸ htodo)⟩
    simp only [Slot.resume, touch, Bool.toNat_true]
    omega

theorem Fresh.touch (hf : a.Fresh) (hr : a.resumed = false) : a.touch.stale = false := by
  simp [Slot.touch, hf.1, hr]

/-- An awaiter that is only resumed when it is set up stays fresh. -/
theorem Fresh.move (ha : a.Kept o) (hf : a.Fresh) (hm : Move o a b r)
    (hin : r = true → a.todo = []) : b.Fresh := by
  cases hm with
  | stay => exact hf
  | begin todo stopCb hdone hsuf =>
    have hr := ha.not_resumed (.inl hdone)
    exact ⟨hf.1, fun h => absurd h (by simp [hr])⟩
  | choose hdone => exact ⟨hf.touch (ha.not_resumed (.inl hdone)), hf.2⟩
  | complete hpending => exact ⟨hf.touch (ha.not_resumed (.inr hpending)), hf.2⟩
  | resume n hpending =>
    have hr := ha.not_resumed (.inr (by omega))
    exact ⟨hf.touch hr, fun _ => hin rfl⟩
  | giveUp hdone => exact ⟨hf.touch (ha.not_resumed (.inl hdone)), fun _ => hin rfl⟩
  | refuse hstop => exact ⟨hf.touch (ha.not_resumed_of_stopCb hstop), hf.2⟩
  | setUp x rest hx =>
    have hr : a.resumed = false := by
      by_contra hr
      simpa [hx] using hf.2 (by simpa using hr)
    exact ⟨hf.touch hr, fun h => absurd h (by simp [Slot.touch, hr])⟩
  | setUpRefuse rest hx hstop =>
    have hr := ha.not_resumed_of_stopCb hstop
    exact ⟨hf.touch hr, fun h => absurd h (by simp [Slot.touch, hr])⟩
  | setUpGiveUp rest hx => exact absurd (hin rfl) (by simp [hx])

/-- A set-up that registers the callback still has to store it. -/
theorem Kept.rest_ne_nil (ha : a.Kept o) {rest : List SetUp}
    (hx : a.todo = .registerStop :: rest) : rest ≠ [] := by
  rintro rfl
  have hsuf := ha.todo
  rw [hx] at hsuf
  obtain ⟨stop, dur⟩ := o
  cases stop <;> cases dur <;> simp [Options.setUps, List.suffix_cons_iff] at hsuf

/-- The awaiter has been used too late, or will be by `await_suspend`. -/
def Spoiled (a : Slot) : Prop := a.stale = true ∨ a.resumed = true ∧ a.todo ≠ []

theorem Spoiled.touch (h : a.Spoiled) : a.touch.stale = true := by
  rcases h with h | h <;> simp [Slot.touch, h]

theorem Spoiled.move (ha : a.Kept o) (hm : Move o a b r) (h : a.Spoiled) : b.Spoiled := by
  cases hm with
  | stay => exact h
  | begin todo stopCb hdone hsuf =>
    have hr := ha.not_resumed (.inl hdone)
    exact .inl (h.resolve_right fun h => by simp [hr] at h)
  | _ => exact .inl h.touch

theorem spoiled_of_early (ha : a.Kept o) (hm : Move o a b true) (htodo : a.todo ≠ []) :
    b.Spoiled := by
  cases hm with
  | resume n hpending => exact .inr ⟨rfl, htodo⟩
  | giveUp hdone => exact .inr ⟨rfl, htodo⟩
  | setUpGiveUp rest hx => exact .inr ⟨rfl, ha.rest_ne_nil hx⟩

end Slot

namespace Staged

/-- The completions of `i` between the critical section of `recycle` and the posted resume. -/
def pending [DecidableEq ι] (b : State ι) (i : ι) : ℕ :=
  (b.completing.map Prod.fst).count i + (b.posted.map Prod.fst).count i

def slot [DecidableEq ι] (s : Staged ι) (i : ι) : Slot :=
  { todo := s.todo i, resumed := s.resumed i, stale := s.stale i
    stopCb := (s.base.waiters i).stopCb, pending := pending s.base i
    done := (s.base.waiters i).completions.length }

variable [DecidableEq ι] {hasRes : Bool} {opts : ι → Options} {s t : Staged ι} {b : State ι}
  {i j : ι} {e : StagedEvent ι}

@[simp] theorem touch_base : (s.touch i).base = s.base := rfl
@[simp] theorem touch_todo : (s.touch i).todo = s.todo := rfl
@[simp] theorem touch_resumed : (s.touch i).resumed = s.resumed := rfl
@[simp] theorem resume_base : (s.resume i).base = s.base := rfl
@[simp] theorem resume_todo : (s.resume i).todo = s.todo := rfl
@[simp] theorem resume_stale : (s.resume i).stale = s.stale := rfl

@[simp] theorem touch_stale (j : ι) : (s.touch i).stale j =
    if j = i then s.stale i || s.resumed i else s.stale j := by
  by_cases hj : j = i
  · subst hj; simp [touch]
  · simp [touch, hj]

@[simp] theorem resume_resumed (j : ι) : (s.resume i).resumed j =
    if j = i then true else s.resumed j := by
  by_cases hj : j = i
  · subst hj; simp [resume]
  · simp [resume, hj]

omit [DecidableEq ι] in
/-- Whoever is in the queue has not been completed. -/
theorem done_of_live (hs : Orderly hasRes b) (hi : i ∈ Pool.live b.pool.awaiterQueue) :
    (b.waiters i).completions = [] := ((hs.queued.waits i).1 hi).2

omit [DecidableEq ι] in
/-- `remove_awaiter` finds only an awaiter in the queue. -/
theorem live_of_removes (hs : Orderly hasRes s.base) (hid : (s.base.waiters i).id ≠ none)
    (hr : s.removes i = true) : i ∈ Pool.live s.base.pool.awaiterQueue := by
  have hmem : (s.base.waiters i).getId ∈ s.base.pool.awaiters := by
    unfold removes Pool.removeAwaiter at hr
    by_contra hmem
    simp [hmem] at hr
  obtain ⟨⟨n, a⟩, hia⟩ := Option.ne_none_iff_exists'.1 hid
  have hget : (s.base.waiters i).getId = (n, a) := by rw [Waiter.getId, hia]; rfl
  obtain ⟨v, hv, hvid⟩ := (hs.queued.ids _).1 hmem
  rw [hget] at hvid
  exact hs.queued.inj v i n a a hvid hia ▸ hv

/-- What `giveUp` does to the waiters. -/
theorem giveUp_waiters (c : Cause) {w : Waiter} (hid : w.id = (s.base.waiters i).id)
    (hb : (s.base.setWaiter i w).giveUp c i = b) :
    b.completing = s.base.completing ∧ b.posted = s.base.posted ∧
      b.waiters = Function.update s.base.waiters i
        (if s.removes i then { w with stopCb := false, completions := w.completions ++ [c] }
          else w) := by
  have hget : w.getId = (s.base.waiters i).getId := by rw [Waiter.getId, hid, Waiter.getId]
  have hrem : (s.base.pool.removeAwaiter w.getId).2 = s.removes i := by rw [hget]; rfl
  subst hb
  unfold State.giveUp
  simp only [State.setWaiter, Function.update_self, hrem]
  split_ifs with hr
  · simp
  · exact ⟨rfl, rfl, rfl⟩

/-- Awaiter `i` is left alone. -/
theorem move_stay (htodo : t.todo i = s.todo i) (hresumed : t.resumed i = s.resumed i)
    (hstale : t.stale i = s.stale i) (hw : t.base.waiters i = s.base.waiters i)
    (hp : pending t.base i = pending s.base i) :
    Slot.Move (opts i) (s.slot i) (t.slot i) false := by
  have heq : t.slot i = s.slot i := by
    simp only [slot, htodo, hresumed, hstale, hw, hp]
  exact heq ▸ .stay _

theorem move_same (hw : b.waiters = s.base.waiters) (hc : b.completing = s.base.completing)
    (hp : b.posted = s.base.posted) (i : ι) :
    Slot.Move (opts i) (s.slot i) (slot { s with base := b } i) false :=
  move_stay rfl rfl rfl (congrFun hw i) (by simp only [pending, hc, hp])

theorem acquire_waiters {o : Options} {addr : ℕ} {stopRequested : Bool} {s : State ι}
    (h : s.acquire hasRes o i addr stopRequested = some b) :
    b.completing = s.completing ∧ b.posted = s.posted ∧
      ∃ w, b.waiters = Function.update s.waiters i w ∧
        w.completions = (s.waiters i).completions := by
  unfold State.acquire at h
  dsimp only at h
  split at h
  · cases h
    exact ⟨rfl, rfl, _, rfl, rfl⟩
  · split at h
    · cases h
      exact ⟨rfl, rfl, _, rfl, rfl⟩
    · split at h
      · cases h
      · cases h
        exact ⟨rfl, rfl, _, rfl, rfl⟩

theorem move_acquire (hs : Orderly hasRes s.base) (hb : (s.base.waiters j).begun = false)
    {addr : ℕ} {stopRequested : Bool}
    (h : s.base.acquire hasRes (opts j) j addr stopRequested = some b) (i : ι) :
    Slot.Move (opts i) (s.slot i)
      (slot { s with
        base := b
        todo := Function.update s.todo j
          (if (b.waiters j).id.isSome then (opts j).setUps else []) } i) false := by
  obtain ⟨hc, hp, w, hw, hdone⟩ := acquire_waiters h
  by_cases hij : i = j
  · subst hij
    have hnil := hs.queued.idle i (hs.queued.begun i hb)
    have heq : slot { s with
        base := b
        todo := Function.update s.todo i
          (if (b.waiters i).id.isSome then (opts i).setUps else []) } i =
        { s.slot i with
          todo := if (b.waiters i).id.isSome then (opts i).setUps else []
          stopCb := w.stopCb } := by
      simp [slot, hw, hdone, pending, hc, hp]
    rw [heq]
    refine .begin _ _ _ (by simp [slot, hnil]) ?_
    split_ifs
    · exact List.suffix_rfl
    · exact List.nil_suffix
  · exact move_stay (by simp [hij]) rfl rfl (by simp [hw, hij])
      (by simp only [pending, hc, hp])

theorem move_recycleLocked (hs : Orderly hasRes s.base) (it : ℕ) (i : ι) :
    Slot.Move (opts i) (s.slot i)
      (slot { s.touchFront with base := s.base.recycleLocked hasRes it } i) false := by
  cases hpop : Pool.popLive s.base.pool.awaiterQueue with
  | none =>
    have hfront : s.touchFront = s := by simp [touchFront, hpop]
    rw [hfront]
    have hnone : (s.base.pool.recycle hasRes (fun i => (s.base.waiters i).getId) it).2 = none := by
      simp only [Pool.recycle, hpop]
      split <;> rfl
    unfold State.recycleLocked
    dsimp only
    rw [hnone]
    exact move_same rfl rfl rfl i
  | some r =>
    obtain ⟨k, q⟩ := r
    have hfront : s.touchFront = s.touch k := by simp [touchFront, hpop]
    have hlive : k ∈ Pool.live s.base.pool.awaiterQueue := by
      obtain ⟨nulls, a, hq, -⟩ := Pool.popLive_eq_some hpop
      exact Pool.mem_live.2 ⟨a, by simp [hq]⟩
    have hnil := done_of_live hs hlive
    rw [hfront]
    by_cases hik : i = k
    · subst hik
      have heq : slot { s.touch i with base := s.base.recycleLocked hasRes it } i =
          { (s.slot i).touch with
            pending := (s.slot i).pending + 1, done := (s.slot i).done + 1 } := by
        simp [slot, Slot.touch, State.recycleLocked, Pool.recycle, hpop, State.setWaiter, pending]
        omega
      rw [heq]
      exact .choose _ (by simp [slot, hnil])
    · refine move_stay rfl rfl (by simp [hik]) ?_ ?_
      · simp [State.recycleLocked, Pool.recycle, hpop, State.setWaiter, hik]
      · simp [State.recycleLocked, Pool.recycle, hpop, State.setWaiter, pending, Ne.symm hik]

/-- One entry of a list of completions goes. -/
theorem count_erase {l : List (ι × ℕ)} {it : ℕ} (h : (j, it) ∈ l) (i : ι) :
    (l.map Prod.fst).count i =
      ((l.erase (j, it)).map Prod.fst).count i + if i = j then 1 else 0 := by
  have hperm := (List.perm_cons_erase h).map Prod.fst
  rw [hperm.count_eq, List.map_cons, List.count_cons]
  by_cases hij : i = j
  · simp [hij]
  · simp [hij, Ne.symm hij]

theorem move_complete {it : ℕ} (hit : (j, it) ∈ s.base.completing) (i : ι) :
    Slot.Move (opts i) (s.slot i)
      (slot { s.touch j with
        base := { s.base with
          completing := s.base.completing.erase (j, it), posted := (j, it) :: s.base.posted } } i)
      false := by
  have hcount := count_erase hit i
  by_cases hij : i = j
  · subst hij
    rw [if_pos rfl] at hcount
    have heq : slot { s.touch i with
        base := { s.base with
          completing := s.base.completing.erase (i, it)
          posted := (i, it) :: s.base.posted } } i = (s.slot i).touch := by
      simp [slot, Slot.touch, pending]
      omega
    rw [heq]
    refine .complete _ ?_
    show 0 < pending s.base i
    unfold pending
    omega
  · rw [if_neg hij] at hcount
    refine move_stay rfl rfl (by simp [hij]) rfl ?_
    have hji : ¬ j = i := fun h => hij h.symm
    simp only [pending, List.map_cons, List.count_cons, beq_iff_eq, hji, if_false]
    omega

theorem move_resume {it : ℕ} (hit : (j, it) ∈ s.base.posted) (i : ι) :
    Slot.Move (opts i) (s.slot i)
      (slot { (s.touch j).resume j with
        base := (State.setWaiter { s.base with posted := s.base.posted.erase (j, it) } j
          { s.base.waiters j with stopCb := false }).addHolder ⟨true, it⟩ } i)
      (decide (j = i)) := by
  have hcount := count_erase hit i
  by_cases hij : i = j
  · subst hij
    rw [if_pos rfl] at hcount
    rw [decide_eq_true rfl]
    have heq : slot { (s.touch i).resume i with
        base := (State.setWaiter { s.base with posted := s.base.posted.erase (i, it) } i
          { s.base.waiters i with stopCb := false }).addHolder ⟨true, it⟩ } i =
        { (s.slot i).resume with pending := pending s.base i - 1 } := by
      simp [slot, Slot.touch, Slot.resume, pending, State.setWaiter, State.addHolder]
      omega
    rw [heq]
    refine .resume _ _ ?_
    show pending s.base i = _
    unfold pending
    omega
  · rw [if_neg hij] at hcount
    rw [decide_eq_false (Ne.symm hij)]
    refine move_stay rfl (by simp [hij]) (by simp [hij]) ?_ ?_
    · simp [State.setWaiter, State.addHolder, hij]
    · simp [pending, State.setWaiter, State.addHolder]
      omega

/-- The timer handler. -/
theorem move_timeout (hs : Orderly hasRes s.base) (htimer : (s.base.waiters j).timer = true)
    (hb : (s.base.setWaiter j { s.base.waiters j with timer := false }).giveUp .timeout j = b)
    (i : ι) :
    ∃ r, Slot.Move (opts i) (s.slot i) ((s.timeout j b).slot i) r ∧
      (r = true ↔ j = i ∧ s.removes i = true) := by
  obtain ⟨hc, hp, hw⟩ := giveUp_waiters .timeout (w := { s.base.waiters j with timer := false })
    rfl hb
  have hid := hs.queued.armed j (.inl htimer)
  by_cases hij : i = j
  · subst hij
    cases hr : s.removes i with
    | true =>
      have hnil := done_of_live hs (live_of_removes hs hid hr)
      refine ⟨true, ?_, by simp⟩
      have heq : (s.timeout i b).slot i =
          { (s.slot i).resume with done := (s.slot i).done + 1 } := by
        simp [timeout, hr, slot, Slot.resume, Slot.touch, hw, pending, hc, hp]
      rw [heq]
      exact .giveUp _ (by simp [slot, hnil])
    | false =>
      refine ⟨false, ?_, by simp⟩
      have heq : (s.timeout i b).slot i = s.slot i := by
        simp [timeout, hr, slot, hw, pending, hc, hp]
      exact heq ▸ .stay _
  · refine ⟨false, ?_, by simp [Ne.symm hij]⟩
    cases hr : s.removes j <;>
      exact move_stay (by simp [timeout, hr]) (by simp [timeout, hr, hij])
        (by simp [timeout, hr, hij]) (by simp [timeout, hr, hw, hij])
        (by simp [timeout, hr, pending, hc, hp])

/-- The state after a stop callback, with what `await_suspend` has left to do. -/
theorem slot_stop (hw : b.waiters = Function.update s.base.waiters j
      (if s.removes j then { s.base.waiters j with
        stopCb := false, completions := (s.base.waiters j).completions ++ [.stop] }
      else { s.base.waiters j with stopCb := false }))
    (hc : b.completing = s.base.completing) (hp : b.posted = s.base.posted) (todo : ι → List SetUp)
    (htodo : ∀ k ≠ j, todo k = s.todo k) (i : ι) :
    (stop j b { s with todo := todo }).slot i =
      if i = j then
        if s.removes j then
          { (s.slot j).resume with todo := todo j, done := (s.slot j).done + 1 }
        else { (s.slot j).touch with todo := todo j, stopCb := false }
      else s.slot i := by
  have hrem : removes { s with todo := todo } j = s.removes j := rfl
  by_cases hij : i = j
  · subst hij
    cases hr : s.removes i <;>
      simp [stop, hrem, hr, slot, Slot.resume, Slot.touch, hw, pending, hc, hp]
  · cases hr : s.removes j <;>
      simp [stop, hrem, hr, slot, hw, pending, hc, hp, hij, htodo i hij]

/-- What the pool does in a stop callback. -/
theorem step_stop (hs : Orderly hasRes s.base)
    (h : ResPool.step hasRes opts s.base (.stop j) = some b) :
    (s.base.waiters j).stopCb = true ∧ (s.removes j = true → (s.base.waiters j).completions = []) ∧
      b.completing = s.base.completing ∧ b.posted = s.base.posted ∧
      b.waiters = Function.update s.base.waiters j
        (if s.removes j then { s.base.waiters j with
          stopCb := false, completions := (s.base.waiters j).completions ++ [.stop] }
        else { s.base.waiters j with stopCb := false }) := by
  obtain ⟨hstop, h⟩ := Option.ite_none_right_eq_some.1 h
  obtain ⟨hc, hp, hw⟩ := giveUp_waiters .stop (w := { s.base.waiters j with stopCb := false })
    rfl (Option.some.inj h)
  have hid := hs.queued.armed j (.inr hstop)
  exact ⟨hstop, fun hr => done_of_live hs (live_of_removes hs hid hr), hc, hp, hw⟩

theorem move_stop (hs : Orderly hasRes s.base)
    (h : ResPool.step hasRes opts s.base (.stop j) = some b) (i : ι) :
    ∃ r, Slot.Move (opts i) (s.slot i) ((s.stop j b).slot i) r ∧
      (r = true ↔ j = i ∧ s.removes i = true) := by
  obtain ⟨hstop, hnil, hc, hp, hw⟩ := step_stop hs h
  have hslot := slot_stop hw hc hp s.todo (fun _ _ => rfl) i
  have hslot : (s.stop j b).slot i = _ := hslot
  rw [hslot]
  by_cases hij : i = j
  · subst hij
    cases hr : s.removes i with
    | true => exact ⟨true, by simpa using .giveUp _ (by simp [slot, hnil hr]), by simp⟩
    | false => exact ⟨false, by simpa using .refuse _ hstop, by simp⟩
  · exact ⟨false, by simpa [hij] using .stay _, by simp [Ne.symm hij]⟩

theorem move_setUp (hs : Orderly hasRes s.base) {stopRequested : Bool}
    (h : s.setUp hasRes opts j stopRequested = some t) (i : ι) :
    ∃ r, Slot.Move (opts i) (s.slot i) (t.slot i) r ∧
      (r = true ↔ s.Resumes i (.setUp j stopRequested)) := by
  unfold setUp at h
  split at h
  · cases h
  next x rest htodo =>
    dsimp only at h
    -- the access itself, without a callback
    have hplain : ∃ r, Slot.Move (opts i) (s.slot i)
        ((touch j { s with todo := Function.update s.todo j rest }).slot i) r ∧ r = false := by
      refine ⟨false, ?_, rfl⟩
      by_cases hij : i = j
      · subst hij
        have heq : (touch i { s with todo := Function.update s.todo i rest }).slot i =
            { (s.slot i).touch with todo := rest } := by
          simp [slot, Slot.touch]
        exact heq ▸ .setUp _ x rest htodo
      · exact move_stay (by simp [hij]) rfl (by simp [hij]) rfl rfl
    split at h
    next hreg =>
      obtain ⟨rfl, hreq⟩ := hreg
      split at h
      next b hb =>
        cases h
        obtain ⟨hstop, hnil, hc, hp, hw⟩ := step_stop hs hb
        have hslot := slot_stop hw hc hp (Function.update s.todo j rest)
          (fun k hk => Function.update_of_ne hk _ _) i
        rw [hslot]
        by_cases hij : i = j
        · subst hij
          cases hr : s.removes i with
          | true =>
            refine ⟨true, ?_, by simp [Resumes, hreq, htodo, hstop, hr]⟩
            simpa using .setUpGiveUp _ rest htodo hstop (by simp [slot, hnil hr])
          | false =>
            refine ⟨false, ?_, by simp [Resumes, hr]⟩
            simpa using .setUpRefuse _ rest htodo hstop
        · exact ⟨false, by simpa [hij] using .stay _, by simp [Resumes, Ne.symm hij]⟩
      next hb =>
        cases h
        obtain ⟨r, hm, rfl⟩ := hplain
        refine ⟨false, hm, ?_⟩
        have hoff : (s.base.waiters j).stopCb = false := by
          simpa [ResPool.step] using hb
        simp only [Bool.false_eq_true, Resumes, false_iff, not_and]
        rintro rfl
        simp [hoff]
    next hreg =>
      cases h
      obtain ⟨r, hm, rfl⟩ := hplain
      refine ⟨false, hm, ?_⟩
      simp only [Bool.false_eq_true, Resumes, false_iff, not_and]
      rintro rfl hreq hhead
      exact absurd ⟨by simpa [htodo] using hhead, hreq⟩ hreg

/-- What one step does to awaiter `i`. -/
theorem step_view (hs : Orderly hasRes s.base) (h : s.step hasRes opts e = some t) (i : ι) :
    ∃ r, Slot.Move (opts i) (s.slot i) (t.slot i) r ∧ (r = true ↔ s.Resumes i e) := by
  cases e with
  | setUp j stopRequested => exact move_setUp hs h i
  | base e =>
    obtain ⟨b, hb, hf⟩ := Option.bind_eq_some_iff.1 h
    -- the steps that no awaiter takes part in
    have hsame (hw : b.waiters = s.base.waiters) (hc : b.completing = s.base.completing)
        (hp : b.posted = s.base.posted) (ht : some { s with base := b } = some t) :
        Slot.Move (opts i) (s.slot i) (t.slot i) false := by
      cases ht
      exact move_same hw hc hp i
    cases e with
    | acquire j addr stopRequested =>
      obtain ⟨hbegun, hb⟩ := Option.ite_none_left_eq_some.1 hb
      cases hf
      exact ⟨false, move_acquire hs (by simpa using hbegun) hb i, by simp [Resumes]⟩
    | recycleLocked it =>
      obtain ⟨-, hb⟩ := Option.ite_none_right_eq_some.1 hb
      cases hb
      cases hf
      exact ⟨false, move_recycleLocked hs it i, by simp [Resumes]⟩
    | complete j it =>
      obtain ⟨hit, hb⟩ := Option.ite_none_right_eq_some.1 hb
      cases hb
      cases hf
      exact ⟨false, move_complete hit i, by simp [Resumes]⟩
    | resume j it =>
      obtain ⟨hit, hb⟩ := Option.ite_none_right_eq_some.1 hb
      cases hb
      cases hf
      exact ⟨decide (j = i), move_resume hit i, by simp [Resumes]⟩
    | timeout j =>
      obtain ⟨htimer, hb⟩ := Option.ite_none_right_eq_some.1 hb
      obtain ⟨-, hf⟩ := Option.ite_none_left_eq_some.1 hf
      cases hf
      exact move_timeout hs htimer (Option.some.inj hb) i
    | stop j =>
      obtain ⟨-, hf⟩ := Option.ite_none_left_eq_some.1 hf
      cases hf
      exact move_stop hs hb i
    | recycle k =>
      refine ⟨false, ?_, by simp [Resumes]⟩
      simp only [ResPool.step] at hb
      split at hb
      · cases hb
      · split at hb <;> cases hb <;> exact hsame rfl rfl rfl hf
    | moveConstruct k =>
      refine ⟨false, ?_, by simp [Resumes]⟩
      simp only [ResPool.step] at hb
      split at hb <;> cases hb
      exact hsame rfl rfl rfl hf
    | moveAssign k l =>
      refine ⟨false, ?_, by simp [Resumes]⟩
      simp only [ResPool.step] at hb
      split at hb <;> cases hb
      exact hsame rfl rfl rfl hf
    | clearUnused =>
      obtain ⟨-, hb⟩ := Option.ite_none_right_eq_some.1 hb
      cases hb
      exact ⟨false, hsame rfl rfl rfl hf, by simp [Resumes]⟩
    | createAll =>
      obtain ⟨-, hb⟩ := Option.ite_none_right_eq_some.1 hb
      cases hb
      exact ⟨false, hsame rfl rfl rfl hf, by simp [Resumes]⟩
    | _ =>
      cases hb
      exact ⟨false, hsame rfl rfl rfl hf, by simp [Resumes]⟩

@[simp] theorem stop_base (b : State ι) : (s.stop i b).base = b := by
  simp only [stop]
  split <;> rfl

@[simp] theorem timeout_base (b : State ι) : (s.timeout i b).base = b := by
  simp only [timeout]
  split <;> rfl

theorem base_follow {e : Event ι} (h : s.follow opts b e = some t) : t.base = b := by
  cases e with
  | timeout j =>
    obtain ⟨-, h⟩ := Option.ite_none_left_eq_some.1 h
    cases h
    exact timeout_base b
  | stop j =>
    obtain ⟨-, h⟩ := Option.ite_none_left_eq_some.1 h
    cases h
    exact stop_base b
  | _ => cases h; rfl

/-- The stages of `await_suspend` take the pool through its own steps. -/
theorem orderly_step (hs : Orderly hasRes s.base) (h : s.step hasRes opts e = some t) :
    Orderly hasRes t.base := by
  cases e with
  | base e =>
    obtain ⟨b, hb, hf⟩ := Option.bind_eq_some_iff.1 h
    exact base_follow hf ▸ ResPool.orderly_step hs hb
  | setUp j stopRequested =>
    change s.setUp hasRes opts j stopRequested = some t at h
    unfold setUp at h
    split at h
    · cases h
    · dsimp only at h
      split at h
      · split at h
        next b hb =>
          cases h
          exact (stop_base b).symm ▸ ResPool.orderly_step hs hb
        next => cases h; exact hs
      · cases h
        exact hs

/-- The invariant. -/
structure Tracked (hasRes : Bool) (opts : ι → Options) (s : Staged ι) : Prop where
  orderly : Orderly hasRes s.base
  slots : ∀ i, (s.slot i).Kept (opts i)

theorem tracked_init {cap : ℕ} (hcap : 0 < cap) : Tracked hasRes opts (init cap : Staged ι) :=
  ⟨orderly_init hcap, fun _ => ⟨rfl, Nat.zero_le 1, nofun, List.nil_suffix⟩⟩

theorem tracked_step (hs : Tracked hasRes opts s) (h : s.step hasRes opts e = some t) :
    Tracked hasRes opts t := by
  have ht := orderly_step hs.orderly h
  refine ⟨ht, fun i => ?_⟩
  obtain ⟨r, hm, -⟩ := step_view hs.orderly h i
  exact (hs.slots i).move hm (ht.queued.once i)

theorem fresh_step (hs : Tracked hasRes opts s) (hf : ∀ i, (s.slot i).Fresh)
    (h : s.step hasRes opts e = some t) (he : ¬ s.Early e) (i : ι) : (t.slot i).Fresh := by
  obtain ⟨r, hm, hr⟩ := step_view hs.orderly h i
  refine (hf i).move (hs.slots i) hm fun htrue => ?_
  by_contra htodo
  exact he ⟨i, hr.1 htrue, htodo⟩

/-- No awaiter is used after its coroutine has been resumed, as long as none is resumed before
it is set up; and a run that leaves no `await_suspend` unfinished is right only then. -/
theorem untouched_iff (hasRes : Bool) (opts : ι → Options) (cap : ℕ) (hcap : 0 < cap)
    (es : List (StagedEvent ι)) (t : Staged ι)
    (h : Steps.run (step hasRes opts) (init cap) es = some t) :
    (Steps.Along (step hasRes opts) (fun s e => ¬ s.Early e) (init cap) es →
      ∀ i, t.stale i = false) ∧
    ((∀ i, t.todo i = []) → ((∀ i, t.stale i = false) ↔
      Steps.Along (step hasRes opts) (fun s e => ¬ s.Early e) (init cap) es)) := by
  have hsafe (ha : Steps.Along (step hasRes opts) (fun s e => ¬ s.Early e) (init cap) es) :
      ∀ i, t.stale i = false := by
    have hfresh : Tracked hasRes opts t ∧ ∀ i, (t.slot i).Fresh :=
      Steps.invariant_run (I := fun s => Tracked hasRes opts s ∧ ∀ i, (s.slot i).Fresh)
        (fun s e t hs he ht => ⟨tracked_step hs.1 ht, fresh_step hs.1 hs.2 ht he⟩)
        ⟨tracked_init hcap, fun _ => ⟨rfl, nofun⟩⟩ ha h
    exact fun i => (hfresh.2 i).1
  refine ⟨hsafe, fun htodo => ⟨fun hstale => ?_, hsafe⟩⟩
  refine Steps.along_of_not (I := Tracked hasRes opts) (D := fun s => ∃ i, (s.slot i).Spoiled)
    (fun s e t hs ht => tracked_step hs ht) ?_ ?_ (tracked_init hcap) h ?_
  · intro s e t hs ht he
    obtain ⟨i, hi, hne⟩ := not_not.1 he
    obtain ⟨r, hm, hr⟩ := step_view hs.orderly ht i
    obtain rfl : r = true := hr.2 hi
    exact ⟨i, Slot.spoiled_of_early (hs.slots i) hm hne⟩
  · rintro s e t hs ⟨i, hi⟩ ht
    obtain ⟨r, hm, -⟩ := step_view hs.orderly ht i
    exact ⟨i, hi.move (hs.slots i) hm⟩
  · rintro ⟨i, hi | hi⟩
    · exact absurd (hstale i) (by simpa [slot] using hi)
    · exact hi.2 (htodo i)

/-- One waiter with both options, served and resumed when it is set up. -/
theorem untouched_handOver :
    Steps.Along (step false fun _ => ⟨true, true⟩) (fun s e => ¬ s.Early e)
      (init 1 : Staged (Fin 1))
      [.base .tryAcquire, .base (.acquire 0 0 false), .setUp 0 false, .setUp 0 false,
        .setUp 0 false, .base (.recycle 0), .base (.recycleLocked 1), .base (.complete 0 1),
        .base (.resume 0 1)] := by
  have h := untouched_iff false (fun _ : Fin 1 => ⟨true, true⟩) 1 (by decide)
    [.base .tryAcquire, .base (.acquire 0 0 false), .setUp 0 false, .setUp 0 false,
      .setUp 0 false, .base (.recycle 0), .base (.recycleLocked 1), .base (.complete 0 1),
      .base (.resume 0 1)] _ rfl
  exact (h.2 (by decide)).1 (by decide)

/-- One waiter with an expiry, served and resumed before the wait of its timer is started. -/
theorem not_untouched : ¬ ∀ (es : List (StagedEvent (Fin 1))) (t : Staged (Fin 1)),
    Steps.run (step false fun _ => ⟨false, true⟩) (init 1) es = some t →
      ∀ i, t.stale i = false := by
  intro h
  have := h [.base .tryAcquire, .base (.acquire 0 0 false), .base (.recycle 0),
    .base (.recycleLocked 1), .base (.complete 0 1), .base (.resume 0 1), .setUp 0 false] _ rfl 0
  exact absurd this (by decide)

end Staged

end Jkl.Async.ResPool
