import Jkl.Async.EcAwaiter

/-! What the handlers of one `ec_awaiter` can do to it, and what they keep. -/
namespace Jkl.Async

variable {ι κ τ : Type*}

/-- A result that the completion handler does not ignore. -/
def Op.ownResult : Op τ → Bool
  | .queued ec _ => decide (ec ≠ .operationAborted)
  | .delivered ec => decide (ec ≠ .operationAborted)
  | _ => false

namespace Op

variable [Inhabited τ]

@[simp] theorem cancel_ne_pending (op : Op τ) : op.cancel ≠ .pending := by
  cases op <;> simp [cancel]

@[simp] theorem cancel_eq_absent (op : Op τ) : op.cancel = .absent ↔ op = .absent := by
  cases op <;> simp [cancel]

@[simp] theorem cancel_eq_delivered (op : Op τ) (ec : Ec) :
    op.cancel = .delivered ec ↔ op = .delivered ec := by
  cases op <;> simp [cancel]

theorem cancel_eq_queued {op : Op τ} {ec : Ec} {r : τ} (h : op.cancel = .queued ec r) :
    op = .queued ec r ∨ op = .pending ∧ ec = .operationAborted := by
  cases op <;> simp_all [cancel]

@[simp] theorem ownResult_cancel (op : Op τ) : op.cancel.ownResult = op.ownResult := by
  cases op <;> simp [cancel, ownResult]

end Op

namespace Awaiter

/-- The act calls the stop callback. -/
def callsBack (o : Options) (a : Awaiter τ) : Act τ → Bool
  | .runStop => a.stopCb && a.stopRequested
  | .emplace => decide (a.phase = .waiting) && o.enableStop && a.stopRequested
  | _ => false

/-- The act cancels the object. -/
def cancelsObj (o : Options) (a : Awaiter τ) : Act τ → Bool
  | .deliverTimer => decide (a.timer = .queued .none) && !a.anyReached
  | x => a.callsBack o x && !(o.hasExpiry && a.anyReached)

/-- Another handler has been before the stop callback. Without an expiry nothing keeps a
result back that is already queued. -/
def overtaken (o : Options) (a : Awaiter τ) : Bool :=
  if o.hasExpiry then a.anyReached else a.op.ownResult

/-- What holds of every awaiter: there is no completion before the operation, and no stop
callback before `await_suspend` has come to its end. -/
structure Ordered (o : Options) (a : Awaiter τ) : Prop where
  begun : a.phase = .fresh ∨ a.phase = .declined → a.op = .absent
  initiated : a.phase ≠ .fresh → a.phase ≠ .declined → a.op ≠ .absent
  early : o.hasExpiry = false → a.op = .absent ∨ a.op = .pending → a.resumed = 0
  armed : a.stopCb = true → o.enableStop = true ∧ a.phase = .suspended
  untimed : o.hasExpiry = false → a.timer = .absent

/-- With an expiry the flag says whether the coroutine has been resumed, and a timer that
is through has seen to it. -/
structure Flagged (a : Awaiter τ) : Prop where
  resumed : a.resumed = if a.anyReached then 1 else 0
  late : ∀ ec, a.timer = .queued ec → ec ≠ .none → a.anyReached = true
  through : a.timer = .delivered → a.anyReached = true
  waits : a.phase = .waiting ∨ a.phase = .suspended → a.timer ≠ .absent

/-- Without an expiry whoever resumes leaves nothing behind that could resume again. -/
structure Single (a : Awaiter τ) : Prop where
  once : a.resumed ≤ 1
  fresh : a.stale = false
  own : ∀ ec r, a.op = .queued ec r → a.resumed = 1 → ec = .operationAborted
  fired : a.resumed = 1 → a.op.ownResult = false → a.stopCb = false ∧ a.phase = .suspended

theorem ordered_init (o : Options) : Ordered o (init : Awaiter τ) := by
  constructor <;> simp [init]

/-- What a handler does that gets past its guards. -/
structure Won (o : Options) (a b : Awaiter τ) : Prop where
  resumed : b.resumed = a.resumed + 1
  stale : b.stale = (a.stale || decide (0 < a.resumed))
  op : b.op = a.op
  phase : b.phase = a.phase
  stopCb : b.stopCb = true → a.stopCb = true ∧ o.enableStop = false
  stopRequested : b.stopRequested = a.stopRequested
  reached : b.anyReached = (o.hasExpiry || a.anyReached)
  timer : b.timer = a.timer ∨ o.hasExpiry = true ∧ b.timer = .queued .operationAborted

theorem completionHandler_spec (o : Options) (ec : Ec) (r : τ) (a : Awaiter τ) :
    a.completionHandler o ec r = a ∧
        (ec = .operationAborted ∨ o.hasExpiry = true ∧ a.anyReached = true) ∨
      Won o a (a.completionHandler o ec r) ∧ ec ≠ .operationAborted ∧
        (o.hasExpiry = true → a.anyReached = false) := by
  unfold completionHandler
  by_cases hec : ec = .operationAborted
  · rw [if_pos hec]
    exact .inl ⟨rfl, .inl hec⟩
  rw [if_neg hec]
  by_cases hreached : (o.hasExpiry && a.anyReached) = true
  · rw [if_pos hreached]
    exact .inl ⟨rfl, .inr (by simpa using hreached)⟩
  rw [if_neg hreached]
  refine .inr ⟨?_, hec, fun he => by simpa [he] using hreached⟩
  constructor
  case timer =>
    by_cases hp : a.timer = .pending <;> cases he : o.hasExpiry <;> cases hs : o.enableStop <;>
      by_cases hn : ec = .none <;>
      simp [hn, hp, touch, setStopCb, cancelTimer, setTimer, resume]
  all_goals
    cases he : o.hasExpiry <;> cases hs : o.enableStop <;> by_cases hn : ec = .none <;>
      simp [hn, touch, setStopCb, cancelTimer, setTimer, resume]

theorem timerHandler_spec {o : Options} (he : o.hasExpiry = true) (ec : Ec) (a : Awaiter τ) :
    a.timerHandler o ec = (a, false) ∧ (ec ≠ .none ∨ a.anyReached = true) ∨
      ∃ b, a.timerHandler o ec = (b, true) ∧ Won o a b ∧ ec = .none ∧ a.anyReached = false := by
  unfold timerHandler
  by_cases hg : (decide (ec ≠ .none) || a.anyReached) = true
  · rw [if_pos hg]
    exact .inl ⟨rfl, by simpa using hg⟩
  rw [if_neg hg]
  refine .inr ⟨_, rfl, ?_, by simpa using hg⟩
  constructor <;> cases hs : o.enableStop <;> simp [he, touch, setStopCb, resume]

theorem stopCallback_spec (o : Options) {a : Awaiter τ} (hcb : a.stopCb = false) :
    a.stopCallback o = (a.touch, false) ∧ o.hasExpiry = true ∧ a.anyReached = true ∨
      ∃ b, a.stopCallback o = (b, true) ∧ Won o a b ∧
        (o.hasExpiry = true → a.anyReached = false) := by
  unfold stopCallback
  by_cases hg : (o.hasExpiry && a.touch.anyReached) = true
  · rw [if_pos hg]
    exact .inl ⟨rfl, by simpa [touch] using hg⟩
  rw [if_neg hg]
  refine .inr ⟨_, rfl, ?_, fun he => by simpa [he, touch] using hg⟩
  constructor
  case timer =>
    by_cases hp : a.timer = .pending <;> cases he : o.hasExpiry <;>
      simp [hp, touch, cancelTimer, setTimer, resume]
  all_goals
    cases he : o.hasExpiry <;> simp [touch, cancelTimer, setTimer, resume, hcb]

/-- The stop callback is called in `a'`, from `emplace` or from the stop source. -/
inductive Called (o : Options) (a : Awaiter τ) : Act τ → Awaiter τ → Prop where
  | emplace (hp : a.phase = .waiting) (hs : o.enableStop = true) (hr : a.stopRequested = true) :
    Called o a .emplace { a with phase := .suspended }
  | run (hc : a.stopCb = true) (hr : a.stopRequested = true) :
    Called o a .runStop (a.setStopCb false)

/-- All that an act can do to its awaiter. -/
inductive Did (o : Options) (a : Awaiter τ) : Act τ → Awaiter τ → Bool → Prop where
  | decline (hp : a.phase = .fresh) :
    Did o a .suspend { a with phase := .declined, ec := .operationAborted } false
  | initiate (hp : a.phase = .fresh) :
    Did o a .suspend { a with phase := .initiated, op := .pending } false
  | wait (hp : a.phase = .initiated) : Did o a .asyncWait (a.asyncWait o) false
  | arm (hp : a.phase = .waiting) (hr : o.enableStop = true → a.stopRequested = false) :
    Did o a .emplace { a with phase := .suspended, stopCb := o.enableStop } false
  | complete (ec : Ec) (r : τ) (ho : a.op = .pending) :
    Did o a (.complete ec r) (a.setOp (.queued ec r)) false
  | ignored (ec : Ec) (r : τ) (ho : a.op = .queued ec r)
    (hi : ec = .operationAborted ∨ o.hasExpiry = true ∧ a.anyReached = true) :
    Did o a .deliver (a.setOp (.delivered ec)) false
  | completed (ec : Ec) (r : τ) (b : Awaiter τ) (ho : a.op = .queued ec r)
    (hec : ec ≠ .operationAborted) (hf : o.hasExpiry = true → a.anyReached = false)
    (hw : Won o (a.setOp (.delivered ec)) b) : Did o a .deliver b false
  | expire (ht : a.timer = .pending) : Did o a .expire (a.setTimer (.queued .none)) false
  | late (ec : Ec) (ht : a.timer = .queued ec) (hl : ec ≠ .none ∨ a.anyReached = true) :
    Did o a .deliverTimer (a.setTimer .delivered) false
  | timedOut (b : Awaiter τ) (ht : a.timer = .queued .none) (hf : a.anyReached = false)
    (hw : Won o (a.setTimer .delivered) b) : Did o a .deliverTimer b true
  | requestStop : Did o a .requestStop a.requestStop false
  | lost (x : Act τ) (c : Awaiter τ) (hc : Called o a x c) (he : o.hasExpiry = true)
    (hf : a.anyReached = true) : Did o a x c.touch false
  | stopped (x : Act τ) (b c : Awaiter τ) (hc : Called o a x c)
    (hf : o.hasExpiry = true → a.anyReached = false) (hw : Won o c b) : Did o a x b true

theorem Called.did {o : Options} {a c : Awaiter τ} {x : Act τ} (hc : Called o a x c)
    (hcb : c.stopCb = false) (hf : c.anyReached = a.anyReached) {p : Awaiter τ × Bool}
    (h : c.stopCallback o = p) : Did o a x p.1 p.2 := by
  subst h
  rcases stopCallback_spec o hcb with ⟨h, he, hr⟩ | ⟨b, h, hw, hr⟩
  · rw [h]
    exact .lost x c hc he (hf ▸ hr)
  · rw [h]
    exact .stopped x b c hc (fun he => hf ▸ hr he) hw

theorem act_did {o : Options} {a : Awaiter τ} {x : Act τ} {p : Awaiter τ × Bool}
    (hord : Ordered o a) (h : a.act o x = some p) : Did o a x p.1 p.2 := by
  have hunarmed : a.phase ≠ .suspended → a.stopCb = false := by
    intro hp
    cases hc : a.stopCb with
    | false => rfl
    | true => exact absurd (hord.armed hc).2 hp
  cases x with
  | suspend =>
    obtain ⟨hp, h⟩ := Option.ite_none_right_eq_some.1 h
    cases h
    unfold suspend
    split
    · exact .decline hp
    · exact .initiate hp
  | asyncWait =>
    obtain ⟨hp, h⟩ := Option.ite_none_right_eq_some.1 h
    cases h
    exact .wait hp
  | emplace =>
    obtain ⟨hp, h⟩ := Option.ite_none_right_eq_some.1 h
    have hcb : a.stopCb = false := hunarmed (by simp [hp])
    cases hs : o.enableStop with
    | false =>
      have hb := Did.arm (o := o) hp (by simp [hs])
      simp only [emplace, hs, Bool.false_eq_true, if_false, Option.some.injEq] at h
      subst h
      simpa [hs, ← hcb] using hb
    | true =>
      simp only [emplace, hs, if_true, Option.some.injEq] at h
      split at h
      · next hr => exact (Called.emplace hp hs hr).did hcb rfl h
      · next hr =>
        subst h
        have hb := Did.arm (o := o) hp (by simpa using fun _ => hr)
        simpa [hs, setStopCb] using hb
  | complete ec r =>
    simp only [act] at h
    split at h
    · next ho => cases h; exact .complete ec r ho
    · cases h
  | deliver =>
    simp only [act] at h
    split at h
    · next ec r ho =>
      cases h
      rcases completionHandler_spec o ec r (a.setOp (.delivered ec)) with ⟨he, hi⟩ | ⟨hw, hec, hf⟩
      · rw [he]
        exact .ignored ec r ho hi
      · exact .completed ec r _ ho hec hf hw
    · cases h
  | expire =>
    obtain ⟨hp, h⟩ := Option.ite_none_right_eq_some.1 h
    cases h
    exact .expire hp
  | deliverTimer =>
    simp only [act] at h
    split at h
    · next ec ht =>
      have he : o.hasExpiry = true := by
        cases he : o.hasExpiry with
        | true => rfl
        | false => simp [hord.untimed he] at ht
      obtain rfl := Option.some.inj h
      rcases timerHandler_spec he ec (a.setTimer .delivered) with ⟨heq, hl⟩ | ⟨b, heq, hw, hec, hf⟩
      · rw [heq]
        exact .late ec ht hl
      · rw [heq]
        exact .timedOut b (hec ▸ ht) hf hw
    · cases h
  | requestStop =>
    cases h
    exact .requestStop
  | runStop =>
    obtain ⟨hp, h⟩ := Option.ite_none_right_eq_some.1 h
    obtain ⟨hc, hr⟩ : a.stopCb = true ∧ a.stopRequested = true := by simpa using hp
    exact (Called.run hc hr).did rfl rfl (Option.some.inj h)

variable {o : Options} {a b c : Awaiter τ} {x : Act τ} {cancels : Bool}

theorem Called.facts (hord : Ordered o a) (hc : Called o a x c) :
    c.phase = .suspended ∧ c.op = a.op ∧ c.timer = a.timer ∧ c.resumed = a.resumed ∧
      c.stale = a.stale ∧ c.anyReached = a.anyReached ∧ c.stopCb = false ∧ a.op ≠ .absent := by
  cases hc with
  | emplace hp =>
    have hcb : a.stopCb = false := by
      cases h : a.stopCb with
      | false => rfl
      | true => simpa [hp] using (hord.armed h).2
    exact ⟨rfl, rfl, rfl, rfl, rfl, rfl, hcb, hord.initiated (by simp [hp]) (by simp [hp])⟩
  | run h =>
    have hp := (hord.armed h).2
    exact ⟨hp, rfl, rfl, rfl, rfl, rfl, rfl, hord.initiated (by simp [hp]) (by simp [hp])⟩

theorem Ordered.setOp (h : Ordered o a) (op : Op τ) (ha : a.op ≠ .absent) (hop : op ≠ .absent)
    (hp : op ≠ .pending) : Ordered o (a.setOp op) := by
  constructor
  · intro hphase
    exact absurd (h.begun hphase) ha
  · exact fun _ _ => hop
  · intro _ hor
    exact absurd hor (by simp [Awaiter.setOp, hop, hp])
  · exact h.armed
  · exact h.untimed

theorem Ordered.setTimer (h : Ordered o a) (t : Timer) (ht : a.timer ≠ .absent) :
    Ordered o (a.setTimer t) := by
  constructor
  · exact h.begun
  · exact h.initiated
  · exact h.early
  · exact h.armed
  · intro he
    exact absurd (h.untimed he) ht

theorem Ordered.called (h : Ordered o a) (hc : Called o a x c) : Ordered o c := by
  obtain ⟨hphase, hop, htimer, hresumed, _, _, hcb, habsent⟩ := hc.facts h
  constructor
  · simp [hphase]
  · simp [hop, habsent]
  · rw [hop, hresumed]
    exact h.early
  · simp [hcb]
  · rw [htimer]
    exact h.untimed

theorem flagged_init : Flagged (init : Awaiter τ) := by
  constructor <;> simp [init]

/-- The winner sets the flag, which was not set. -/
theorem Flagged.won (he : o.hasExpiry = true) (hw : Won o a b) (hr : a.resumed = 0)
    (ht : a.phase = .waiting ∨ a.phase = .suspended → a.timer ≠ .absent) : Flagged b := by
  have hreached : b.anyReached = true := by simp [hw.reached, he]
  constructor
  · simp [hw.resumed, hr, hreached]
  · exact fun _ _ _ => hreached
  · exact fun _ => hreached
  · rw [hw.phase]
    intro hp
    rcases hw.timer with h | ⟨_, h⟩
    · exact h ▸ ht hp
    · simp [h]

theorem Flagged.did (he : o.hasExpiry = true) (hord : Ordered o a) (h : Flagged a)
    (hd : Did o a x b cancels) : Flagged b := by
  have hzero : a.anyReached = false → a.resumed = 0 := by
    intro hr
    simp [h.resumed, hr]
  cases hd with
  | decline hp => exact ⟨h.resumed, h.late, h.through, by simp⟩
  | initiate hp => exact ⟨h.resumed, h.late, h.through, by simp⟩
  | wait hp => exact ⟨h.resumed, by simp [asyncWait, he], by simp [asyncWait, he],
      by simp [asyncWait, he]⟩
  | arm hp _ => exact ⟨h.resumed, h.late, h.through, fun _ => h.waits (.inl hp)⟩
  | complete => exact ⟨h.resumed, h.late, h.through, h.waits⟩
  | ignored => exact ⟨h.resumed, h.late, h.through, h.waits⟩
  | completed ec r _ ho hec hf hw => exact .won he hw (hzero (hf he)) h.waits
  | expire ht => exact ⟨h.resumed, by simp [setTimer], by simp [setTimer], by simp [setTimer]⟩
  | late ec ht hl =>
    have hreached : a.anyReached = true := by
      rcases hl with hec | hr
      · exact h.late ec ht hec
      · exact hr
    exact ⟨h.resumed, fun _ _ _ => hreached, fun _ => hreached, by simp [setTimer]⟩
  | timedOut _ ht hf hw => exact .won he hw (hzero hf) (by simp [setTimer])
  | requestStop => exact ⟨h.resumed, h.late, h.through, h.waits⟩
  | lost _ c hc _ hr =>
    obtain ⟨hphase, _, htimer, hresumed, _, hreached, _, _⟩ := hc.facts hord
    have hwaits : a.timer ≠ .absent := by
      cases hc with
      | emplace hp => exact h.waits (.inl hp)
      | run hcb => exact h.waits (.inr (hord.armed hcb).2)
    have hr : c.touch.anyReached = true := hreached.trans hr
    refine ⟨?_, fun _ _ _ => hr, fun _ => hr, fun _ => ?_⟩
    · rw [show c.touch.resumed = c.resumed from rfl, hresumed, h.resumed,
        show c.touch.anyReached = c.anyReached from rfl, hreached]
    · rwa [show c.touch.timer = c.timer from rfl, htimer]
  | stopped _ b c hc hf hw =>
    obtain ⟨_, _, htimer, hresumed, _⟩ := hc.facts hord
    refine .won he hw (hresumed.trans (hzero (hf he))) fun _ => ?_
    rw [htimer]
    cases hc with
    | emplace hp => exact h.waits (.inl hp)
    | run hcb => exact h.waits (.inr (hord.armed hcb).2)

theorem Called.callsBack (hc : Called o a x c) : a.callsBack o x = true := by
  cases hc with
  | emplace hp hs hr => simp [Awaiter.callsBack, hp, hs, hr]
  | run hcb hr => simp [Awaiter.callsBack, hcb, hr]

/-- No access after the resumption as long as no callback is overtaken. -/
theorem Flagged.did_stale (he : o.hasExpiry = true) (hord : Ordered o a) (h : Flagged a)
    (hs : a.stale = false) (hx : a.callsBack o x = true → a.overtaken o = false)
    (hd : Did o a x b cancels) : b.stale = false := by
  have hzero : a.anyReached = false → a.resumed = 0 := by
    intro hr
    simp [h.resumed, hr]
  cases hd with
  | completed ec r _ ho hec hf hw =>
    simp [hw.stale, Awaiter.setOp, hs, hzero (hf he)]
  | timedOut _ ht hf hw => simp [hw.stale, Awaiter.setTimer, hs, hzero hf]
  | lost _ c hc _ hr =>
    have := hx hc.callsBack
    simp [overtaken, he, hr] at this
  | stopped _ b c hc hf hw =>
    obtain ⟨_, _, _, hresumed, hstale, _⟩ := hc.facts hord
    simp [hw.stale, hresumed, hstale, hs, hzero (hf he)]
  | _ => exact hs

theorem single_init : Single (init : Awaiter τ) := by
  constructor <;> simp [init]

theorem Single.called_zero (h : Single a) (hc : Called o a x c)
    (hown : a.op.ownResult = false) : a.resumed = 0 := by
  by_contra hne
  have hone : a.resumed = 1 := by have := h.once; omega
  obtain ⟨hcb, hphase⟩ := h.fired hone hown
  cases hc with
  | emplace hp => simp [hp] at hphase
  | run ht => simp [ht] at hcb

/-- An act that calls back either finds the flag set or resumes. -/
theorem Did.called (hd : Did o a x b cancels) (hx : a.callsBack o x = true) :
    ∃ c, Called o a x c ∧
      (b = c.touch ∧ o.hasExpiry = true ∧ a.anyReached = true ∨ Won o c b ∧ cancels = true) := by
  cases hd with
  | lost _ c hc he hr => exact ⟨c, hc, .inl ⟨rfl, he, hr⟩⟩
  | stopped _ _ c hc _ hw => exact ⟨c, hc, .inr ⟨hw, rfl⟩⟩
  | arm _ hr =>
    simp only [callsBack, Bool.and_eq_true, decide_eq_true_eq] at hx
    simp [hr hx.1.2] at hx
  | _ => simp [callsBack] at hx

theorem Did.cancels_eq (hd : Did o a x b cancels) : cancels = a.cancelsObj o x := by
  cases hd with
  | arm _ hr =>
    cases hs : o.enableStop with
    | false => simp [cancelsObj, callsBack, hs]
    | true => simp [cancelsObj, callsBack, hr hs]
  | late ec ht hl =>
    rcases hl with hec | hr
    · simp [cancelsObj, ht, hec]
    · simp [cancelsObj, hr]
  | timedOut _ ht hf => simp [cancelsObj, ht, hf]
  | lost x c hc he hr => cases hc <;> simp [cancelsObj, he, hr]
  | stopped x _ c hc hf =>
    have hx := hc.callsBack
    have hg : (o.hasExpiry && a.anyReached) = false := by
      cases he : o.hasExpiry with
      | false => rfl
      | true => simp [hf he]
    cases hc <;> simp [cancelsObj, hx, hg]
  | _ => simp [cancelsObj, callsBack]

/-- Without an expiry a delivered result has resumed the coroutine, and one that was ignored
was followed by the stop callback or will be. -/
structure Awake (o : Options) (a : Awaiter τ) : Prop where
  aborted : (∃ r, a.op = .queued .operationAborted r) ∨ a.op = .delivered .operationAborted →
    0 < a.resumed ∨ o.enableStop = true ∧ a.stopRequested = true
  armed : o.enableStop = true → a.phase = .suspended → a.stopCb = true ∨ 0 < a.resumed

def Woken (a : Awaiter τ) : Prop :=
  ∀ ec, a.op = .delivered ec → ec ≠ .operationAborted → 0 < a.resumed

variable [Inhabited τ]

/-- What is left of an act once the cancellation it asked for is carried out. -/
def settle (b : Awaiter τ) (cancels : Bool) : Awaiter τ := if cancels then b.abortOp else b

theorem abortOp_of_ne (h : a.op ≠ .pending) : a.abortOp = a := by
  have hop : a.op.cancel = a.op := by
    cases ho : a.op with
    | pending => exact absurd ho h
    | _ => rfl
  unfold Awaiter.abortOp
  rw [hop]
  rfl

theorem Ordered.abortOp (h : Ordered o a) : Ordered o a.abortOp := by
  constructor
  · intro hp
    exact (Op.cancel_eq_absent _).2 (h.begun hp)
  · intro hf hd
    exact mt (Op.cancel_eq_absent _).1 (h.initiated hf hd)
  · intro he hop
    exact h.early he (.inl (by simpa [Awaiter.abortOp, Awaiter.setOp] using hop))
  · exact h.armed
  · exact h.untimed

@[simp] theorem settle_false (b : Awaiter τ) : b.settle false = b := rfl

@[simp] theorem settle_true (b : Awaiter τ) : b.settle true = b.abortOp := rfl

@[simp] theorem settle_phase (b : Awaiter τ) : (b.settle cancels).phase = b.phase := by
  cases cancels <;> rfl

@[simp] theorem settle_timer (b : Awaiter τ) : (b.settle cancels).timer = b.timer := by
  cases cancels <;> rfl

@[simp] theorem settle_stopCb (b : Awaiter τ) : (b.settle cancels).stopCb = b.stopCb := by
  cases cancels <;> rfl

@[simp] theorem settle_resumed (b : Awaiter τ) : (b.settle cancels).resumed = b.resumed := by
  cases cancels <;> rfl

@[simp] theorem settle_stale (b : Awaiter τ) : (b.settle cancels).stale = b.stale := by
  cases cancels <;> rfl

@[simp] theorem settle_anyReached (b : Awaiter τ) :
    (b.settle cancels).anyReached = b.anyReached := by
  cases cancels <;> rfl

@[simp] theorem settle_op_eq_absent (b : Awaiter τ) :
    (b.settle cancels).op = .absent ↔ b.op = .absent := by
  cases cancels
  · rfl
  · exact Op.cancel_eq_absent _

/-- A handler that wins leaves the phase, the operation and what is armed in order. -/
theorem Ordered.won (h : Ordered o a) (hw : Won o a b)
    (ho : o.hasExpiry = false → (b.settle cancels).op ≠ .absent ∧ (b.settle cancels).op ≠ .pending) :
    Ordered o (b.settle cancels) := by
  constructor
  · rw [settle_phase, settle_op_eq_absent, hw.phase, hw.op]
    exact h.begun
  · rw [settle_phase, Ne, Ne, Ne, settle_op_eq_absent, hw.phase, hw.op]
    exact h.initiated
  · intro he hop
    exact absurd hop (by simpa using ho he)
  · intro hcb
    rw [settle_stopCb] at hcb
    rw [settle_phase, hw.phase]
    exact h.armed (hw.stopCb hcb).1
  · intro he
    rw [settle_timer]
    rcases hw.timer with ht | ⟨ht, _⟩
    · exact ht.trans (h.untimed he)
    · simp [he] at ht

theorem Ordered.did (h : Ordered o a) (hd : Did o a x b cancels) :
    Ordered o (b.settle cancels) := by
  cases hd with
  | decline hp =>
    constructor
    · exact fun _ => h.begun (.inl hp)
    · simp
    · exact h.early
    · intro hcb
      simpa [hp] using (h.armed hcb).2
    · exact h.untimed
  | initiate hp =>
    constructor
    · simp
    · simp
    · intro he _
      exact h.early he (.inl (h.begun (.inl hp)))
    · intro hcb
      simpa [hp] using (h.armed hcb).2
    · exact h.untimed
  | wait hp =>
    constructor
    · simp [asyncWait]
    · intro _ _
      exact h.initiated (by simp [hp]) (by simp [hp])
    · exact h.early
    · intro hcb
      simpa [hp] using (h.armed hcb).2
    · intro he
      simpa [asyncWait, he] using h.untimed he
  | arm hp _ =>
    constructor
    · simp
    · intro _ _
      exact h.initiated (by simp [hp]) (by simp [hp])
    · exact h.early
    · exact fun hs => ⟨hs, rfl⟩
    · exact h.untimed
  | complete ec r ho => exact h.setOp _ (by simp [ho]) (by simp) (by simp)
  | ignored ec r ho _ => exact h.setOp _ (by simp [ho]) (by simp) (by simp)
  | completed ec r _ ho _ _ hw =>
    have hord := h.setOp (.delivered ec) (by simp [ho]) (by simp) (by simp)
    exact hord.won hw fun _ => by simp [hw.op, Awaiter.setOp]
  | expire ht => exact h.setTimer _ (by simp [ht])
  | late ec ht _ => exact h.setTimer _ (by simp [ht])
  | timedOut _ ht _ hw =>
    refine (h.setTimer _ (by simp [ht])).won hw fun he => ?_
    exact absurd (h.untimed he) (by simp [ht])
  | requestStop => exact ⟨h.begun, h.initiated, h.early, h.armed, h.untimed⟩
  | lost _ c hc =>
    have hc := h.called hc
    exact ⟨hc.begun, hc.initiated, hc.early, hc.armed, hc.untimed⟩
  | stopped _ b c hc _ hw =>
    refine (h.called hc).won hw fun _ => ?_
    have habsent := (hc.facts h).2.2.2.2.2.2.2
    have hop := (hc.facts h).2.1
    exact ⟨by simpa [-settle_true, hw.op, hop] using habsent, Op.cancel_ne_pending _⟩

theorem Flagged.settle (h : Flagged a) : Flagged (a.settle cancels) := by
  constructor
  · simpa using h.resumed
  · simpa using h.late
  · simpa using h.through
  · simpa using h.waits

theorem Single.abortOp (h : Single a) : Single a.abortOp := by
  constructor
  · exact h.once
  · exact h.fresh
  · intro ec r hop hr
    rcases Op.cancel_eq_queued hop with hop | ⟨_, hec⟩
    · exact h.own ec r hop hr
    · exact hec
  · intro hr hown
    exact h.fired hr (by simpa [Awaiter.abortOp, Awaiter.setOp] using hown)

theorem Single.stopped (hord : Ordered o a) (h : Single a) (hc : Called o a x c)
    (hown : a.op.ownResult = false) (hw : Won o c b) : Single b.abortOp := by
  obtain ⟨hphase, hop, _, hresumed, hstale, _, hcb, _⟩ := hc.facts hord
  have hzero : c.resumed = 0 := hresumed.trans (h.called_zero hc hown)
  have hb : b.op.ownResult = false := by rw [hw.op, hop, hown]
  constructor
  · simp [Awaiter.abortOp, Awaiter.setOp, hw.resumed, hzero]
  · simp [Awaiter.abortOp, Awaiter.setOp, hw.stale, hzero, hstale, h.fresh]
  · intro ec r hq _
    rcases Op.cancel_eq_queued hq with hq | ⟨_, hec⟩
    · simpa [hq, Op.ownResult] using hb
    · exact hec
  · intro _ _
    refine ⟨?_, hw.phase.trans hphase⟩
    cases ht : b.stopCb with
    | false => exact ht
    | true => simpa [hcb] using (hw.stopCb ht).1

theorem Single.did (he : o.hasExpiry = false) (hord : Ordered o a) (h : Single a)
    (hx : a.callsBack o x = true → a.overtaken o = false) (hd : Did o a x b cancels) :
    Single (b.settle cancels) := by
  have hunfired : a.phase ≠ .suspended → a.resumed = 1 → a.op.ownResult = false → False :=
    fun hp hr hown => hp (h.fired hr hown).2
  cases hd with
  | decline hp =>
    exact ⟨h.once, h.fresh, h.own, fun hr hown => (hunfired (by simp [hp]) hr hown).elim⟩
  | initiate hp =>
    have hzero : a.resumed = 0 := hord.early he (.inl (hord.begun (.inl hp)))
    exact ⟨h.once, h.fresh, by simp, by simp [hzero]⟩
  | wait hp =>
    exact ⟨h.once, h.fresh, h.own, fun hr hown => (hunfired (by simp [hp]) hr hown).elim⟩
  | arm hp _ =>
    exact ⟨h.once, h.fresh, h.own, fun hr hown => (hunfired (by simp [hp]) hr hown).elim⟩
  | complete ec r ho =>
    have hzero : a.resumed = 0 := hord.early he (.inr ho)
    exact ⟨h.once, h.fresh, by simp [setOp, hzero], by simp [setOp, hzero]⟩
  | ignored ec r ho hi =>
    have hec : ec = .operationAborted := by simpa [he] using hi
    exact ⟨h.once, h.fresh, by simp [setOp],
      fun hr _ => h.fired hr (by simp [ho, hec, Op.ownResult])⟩
  | completed ec r _ ho hec _ hw =>
    have hzero : a.resumed = 0 := by
      have := h.once
      have : a.resumed ≠ 1 := fun hr => hec (h.own ec r ho hr)
      omega
    constructor
    · simp [hw.resumed, Awaiter.setOp, hzero]
    · simp [hw.stale, Awaiter.setOp, hzero, h.fresh]
    · simp [hw.op, Awaiter.setOp]
    · simp [hw.op, Awaiter.setOp, Op.ownResult, hec]
  | expire ht => simp [hord.untimed he] at ht
  | late ec ht _ => simp [hord.untimed he] at ht
  | timedOut _ ht _ _ => simp [hord.untimed he] at ht
  | requestStop => exact ⟨h.once, h.fresh, h.own, h.fired⟩
  | lost _ _ _ hexp _ => simp [he] at hexp
  | stopped _ b c hc _ hw =>
    have hown : a.op.ownResult = false := by simpa [overtaken, he] using hx hc.callsBack
    exact h.stopped hord hc hown hw

theorem Woken.abortOp (h : Woken a) : Woken a.abortOp := fun ec hop hec =>
  h ec ((Op.cancel_eq_delivered _ _).1 hop) hec

theorem Woken.did (he : o.hasExpiry = false) (hord : Ordered o a) (h : Woken a)
    (hd : Did o a x b cancels) : Woken (b.settle cancels) := by
  cases hd with
  | initiate => intro ec hop; simp at hop
  | complete => intro ec hop; simp [setOp] at hop
  | ignored ec r _ hi =>
    intro ec' hop hec
    have : ec = .operationAborted := by simpa [he] using hi
    simp only [settle_false, setOp, Op.delivered.injEq] at hop
    exact absurd (hop ▸ this) hec
  | completed ec r _ _ _ _ hw =>
    intro _ _ _
    simp [hw.resumed]
  | timedOut _ ht => simp [hord.untimed he] at ht
  | lost _ _ _ hexp => simp [he] at hexp
  | stopped _ b c _ _ hw =>
    intro _ _ _
    simp [-settle_true, hw.resumed]
  | _ => exact h

theorem Awake.did (he : o.hasExpiry = false) (hord : Ordered o a) (h : Awake o a)
    (hx : ∀ r, x = .complete .operationAborted r → o.enableStop = true ∧ a.stopRequested = true)
    (hd : Did o a x b cancels) : Awake o (b.settle cancels) := by
  cases hd with
  | decline hp => exact ⟨h.aborted, by simp⟩
  | initiate hp => exact ⟨by simp, by simp⟩
  | wait hp => exact ⟨h.aborted, by simp [asyncWait]⟩
  | arm hp hr => exact ⟨h.aborted, fun hs _ => .inl hs⟩
  | complete ec r ho =>
    refine ⟨fun hop => ?_, h.armed⟩
    have hec : ec = .operationAborted := by simpa [setOp] using hop
    exact .inr (hx r (by rw [hec]))
  | ignored ec r ho hi =>
    have hec : ec = .operationAborted := by simpa [he] using hi
    exact ⟨fun _ => h.aborted (.inl ⟨r, hec ▸ ho⟩), h.armed⟩
  | completed ec r _ _ _ _ hw =>
    exact ⟨fun _ => .inl (by simp [hw.resumed]), fun _ _ => .inr (by simp [hw.resumed])⟩
  | timedOut _ ht => simp [hord.untimed he] at ht
  | requestStop => exact ⟨fun hop => (h.aborted hop).imp_right fun hs => ⟨hs.1, rfl⟩, h.armed⟩
  | lost _ _ _ hexp => simp [he] at hexp
  | stopped _ b c _ _ hw =>
    have hpos : 0 < b.resumed := by simp [hw.resumed]
    exact ⟨fun _ => .inl hpos, fun _ _ => .inr hpos⟩
  | _ => exact ⟨h.aborted, h.armed⟩

theorem Awake.abortOp (h : Awake o a)
    (hp : a.op = .pending → o.enableStop = true ∧ a.stopRequested = true) :
    Awake o a.abortOp := by
  refine ⟨fun hop => ?_, h.armed⟩
  by_cases hpend : a.op = .pending
  · exact .inr (hp hpend)
  · rw [abortOp_of_ne hpend] at hop ⊢
    exact h.aborted hop

end Awaiter

end Jkl.Async
