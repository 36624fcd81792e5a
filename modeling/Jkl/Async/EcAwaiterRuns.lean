import Jkl.Async.EcAwaiterSteps

/-! Who resumes the coroutine of an `ec_awaiter`: at most one handler, and at least one. -/
namespace Jkl.Async

variable {ι κ τ : Type*}

section System

variable [DecidableEq ι] [DecidableEq κ] [Inhabited τ] {opts : ι → Options} {obj : ι → κ}
  {s t : ι → Awaiter τ} {e : Event ι κ τ} {es : List (Event ι κ τ)} {i : ι}

/-- Somebody else cancels or closes the object awaiter `i` waits on. -/
def ForeignCancel (opts : ι → Options) (obj : ι → κ) (s : ι → Awaiter τ) (i : ι) :
    Event ι κ τ → Prop
  | .at j x => j ≠ i ∧ obj j = obj i ∧ (s j).cancelsObj (opts j) x = true
  | .cancel o => obj i = o

/-- What one step does to awaiter `i`. -/
theorem step_view (hord : ∀ j, (s j).Ordered (opts j)) (h : step opts obj s e = some t) (i : ι) :
    (∃ x b c, e = .at i x ∧ (s i).Did (opts i) x b c ∧ t i = b.settle c) ∨
      (∀ x, e ≠ .at i x) ∧ (t i = s i ∧ ¬ForeignCancel opts obj s i e ∨
        t i = (s i).abortOp ∧ ForeignCancel opts obj s i e) := by
  cases e with
  | «at» j x =>
    obtain ⟨p, hp, rfl⟩ := Option.map_eq_some_iff.1 h
    have hd := Awaiter.act_did (hord j) hp
    by_cases hj : j = i
    · subst hj
      refine .inl ⟨x, p.1, p.2, rfl, hd, ?_⟩
      cases hc : p.2 <;> simp [cancelObj]
    · refine .inr ⟨by simp [hj], ?_⟩
      have hc := hd.cancels_eq
      by_cases hobj : obj i = obj j
      · cases hp2 : p.2 with
        | false => exact .inl ⟨by simp [Ne.symm hj], by simp [ForeignCancel, ← hc, hp2]⟩
        | true =>
          exact .inr ⟨by simp [cancelObj, hobj, Ne.symm hj], hj, hobj.symm, by rw [← hc, hp2]⟩
      · refine .inl ⟨?_, fun hf => hobj hf.2.1.symm⟩
        cases hp2 : p.2 <;> simp [cancelObj, hobj, Ne.symm hj]
  | cancel o =>
    obtain rfl := Option.some.inj h
    refine .inr ⟨by simp, ?_⟩
    by_cases hobj : obj i = o
    · exact .inr ⟨by simp [cancelObj, hobj], hobj⟩
    · exact .inl ⟨by simp [cancelObj, hobj], hobj⟩

/-- What holds of every awaiter in every reachable state. -/
structure Consistent (opts : ι → Options) (s : ι → Awaiter τ) : Prop where
  ordered : ∀ i, (s i).Ordered (opts i)
  flagged : ∀ i, (opts i).hasExpiry = true → (s i).Flagged
  woken : ∀ i, (opts i).hasExpiry = false → (s i).Woken

theorem consistent_step (hs : Consistent opts s) (h : step opts obj s e = some t) :
    Consistent opts t := by
  constructor
  · intro i
    rcases step_view hs.ordered h i with ⟨x, b, c, _, hd, ht⟩ | ⟨_, ⟨ht, _⟩ | ⟨ht, _⟩⟩
    · exact ht ▸ (hs.ordered i).did hd
    · exact ht ▸ hs.ordered i
    · exact ht ▸ (hs.ordered i).abortOp
  · intro i he
    rcases step_view hs.ordered h i with ⟨x, b, c, _, hd, ht⟩ | ⟨_, ⟨ht, _⟩ | ⟨ht, _⟩⟩
    · exact ht ▸ ((hs.flagged i he).did he (hs.ordered i) hd).settle
    · exact ht ▸ hs.flagged i he
    · have hf : ((s i).settle true).Flagged := (hs.flagged i he).settle
      exact ht ▸ hf
  · intro i he
    rcases step_view hs.ordered h i with ⟨x, b, c, _, hd, ht⟩ | ⟨_, ⟨ht, _⟩ | ⟨ht, _⟩⟩
    · exact ht ▸ (hs.woken i he).did he (hs.ordered i) hd
    · exact ht ▸ hs.woken i he
    · exact ht ▸ (hs.woken i he).abortOp

omit [DecidableEq ι] [Inhabited τ] in
theorem consistent_start : Consistent opts (start : ι → Awaiter τ) :=
  ⟨fun i => Awaiter.ordered_init (opts i), fun _ _ => Awaiter.flagged_init,
    fun _ _ _ hop => by simp [start, Awaiter.init] at hop⟩

theorem consistent_run (h : Steps.run (step opts obj) start es = some s) : Consistent opts s :=
  Steps.invariant_of_step (fun _ _ _ hs ht => consistent_step hs ht) consistent_start h

/-- The stop callback of awaiter `i` is not called once another handler has gone before it,
nor, without an expiry, while a result is queued that the completion handler takes. -/
def InTime (opts : ι → Options) (i : ι) (s : ι → Awaiter τ) (e : Event ι κ τ) : Prop :=
  ∀ x, e = .at i x → (s i).callsBack (opts i) x = true → (s i).overtaken (opts i) = false

/-- No handler uses the awaiter after its coroutine has been resumed. -/
structure Awaiter.Sound (a : Awaiter τ) : Prop where
  once : a.resumed ≤ 1
  fresh : a.stale = false

theorem stale_step (hs : Consistent opts s) (he : (opts i).hasExpiry = true)
    (hfresh : (s i).stale = false) (hin : InTime opts i s e) (h : step opts obj s e = some t) :
    (t i).stale = false := by
  rcases step_view hs.ordered h i with ⟨x, b, c, hx, hd, ht⟩ | ⟨_, ⟨ht, _⟩ | ⟨ht, _⟩⟩
  · rw [ht, Awaiter.settle_stale]
    exact (hs.flagged i he).did_stale he (hs.ordered i) hfresh (hin x hx) hd
  · exact ht ▸ hfresh
  · exact ht ▸ hfresh

theorem single_step (hs : Consistent opts s) (he : (opts i).hasExpiry = false)
    (hsingle : (s i).Single) (hin : InTime opts i s e) (h : step opts obj s e = some t) :
    (t i).Single := by
  rcases step_view hs.ordered h i with ⟨x, b, c, hx, hd, ht⟩ | ⟨_, ⟨ht, _⟩ | ⟨ht, _⟩⟩
  · exact ht ▸ hsingle.did he (hs.ordered i) (hin x hx) hd
  · exact ht ▸ hsingle
  · exact ht ▸ hsingle.abortOp

theorem single_run (he : (opts i).hasExpiry = false)
    (ha : Steps.Along (step opts obj) (InTime opts i) start es)
    (h : Steps.run (step opts obj) start es = some s) : (s i).Single := by
  have hinv : Consistent opts s ∧ (s i).Single :=
    Steps.invariant_run (I := fun s => Consistent opts s ∧ (s i).Single)
      (fun s e t hs hin ht => ⟨consistent_step hs.1 ht, single_step hs.1 he hs.2 hin ht⟩)
      ⟨consistent_start, Awaiter.single_init⟩ ha h
  exact hinv.2

theorem sound_run (ha : Steps.Along (step opts obj) (InTime opts i) start es)
    (h : Steps.run (step opts obj) start es = some s) : (s i).Sound := by
  cases he : (opts i).hasExpiry with
  | true =>
    have hinv : Consistent opts s ∧ (s i).stale = false :=
      Steps.invariant_run (I := fun s => Consistent opts s ∧ (s i).stale = false)
        (fun s e t hs hin ht => ⟨consistent_step hs.1 ht, stale_step hs.1 he hs.2 hin ht⟩)
        ⟨consistent_start, rfl⟩ ha h
    refine ⟨?_, hinv.2⟩
    rw [(hinv.1.flagged i he).resumed]
    split <;> omega
  | false =>
    have hsingle := single_run he ha h
    exact ⟨hsingle.once, hsingle.fresh⟩

theorem step_at (obj : ι → κ) {x : Act τ} {b : Awaiter τ} (h : (s i).act (opts i) x = some (b, false)) :
    step opts obj s (.at i x) = some (Function.update s i b) := by
  simp [step, h]

/-- A result that was queued when the stop callback ran still reaches its handler. -/
theorem deliver_again (obj : ι → κ) {ec : Ec} {r : τ} (he : (opts i).hasExpiry = false)
    (hop : (s i).op = .queued ec r) (hec : ec ≠ .operationAborted) :
    ∃ u, step opts obj s (.at i .deliver) = some u ∧ (u i).resumed = (s i).resumed + 1 ∧
      (u i).op = .delivered ec ∧ (u i).phase = (s i).phase ∧
      ((s i).stopCb = false → (u i).stopCb = false) := by
  have hact : (s i).act (opts i) .deliver =
      some (((s i).setOp (.delivered ec)).completionHandler (opts i) ec r, false) := by
    simp only [Awaiter.act, hop]
  refine ⟨_, step_at obj hact, ?_⟩
  rw [Function.update_self]
  rcases Awaiter.completionHandler_spec (opts i) ec r ((s i).setOp (.delivered ec)) with
    ⟨_, hi⟩ | ⟨hw, _⟩
  · simp [hec, he] at hi
  · refine ⟨hw.resumed, hw.op, hw.phase, fun hcb => ?_⟩
    have := mt hw.stopCb
    simpa [Awaiter.setOp, hcb] using this

/-- Every handler of the awaiter has been delivered; a stop that was requested has called
back. -/
structure Awaiter.Settled (o : Options) (a : Awaiter τ) : Prop where
  phase : a.phase = .suspended
  op : ∃ ec, a.op = .delivered ec
  timer : o.hasExpiry = true → a.timer = .delivered
  stopCb : ¬(a.stopCb = true ∧ a.stopRequested = true)

/-- Without an expiry an overtaken callback resumes the coroutine for a second time, or
leaves that to the result it has not kept back. -/
theorem resumed_twice (hs : Consistent opts s) (he : (opts i).hasExpiry = false)
    (hin : ¬InTime opts i s e) (h : step opts obj s e = some t) :
    ∃ es u, Steps.run (step opts obj) t es = some u ∧ (u i).Settled (opts i) ∧
      1 < (u i).resumed := by
  simp only [InTime, not_forall, Bool.not_eq_false] at hin
  obtain ⟨x, rfl, hcall, hover⟩ := hin
  have hown : (s i).op.ownResult = true := by simpa [Awaiter.overtaken, he] using hover
  rcases step_view hs.ordered h i with ⟨y, b, c, hx, hd, ht⟩ | ⟨hne, _⟩
  swap
  · exact absurd rfl (hne x)
  obtain rfl : x = y := by simpa using hx
  obtain ⟨c', hc, ⟨_, hexp, _⟩ | ⟨hw, rfl⟩⟩ := hd.called hcall
  · simp [he] at hexp
  obtain ⟨hphase, hop, _, hresumed, _, _, hcb, _⟩ := hc.facts (hs.ordered i)
  have hcb : (t i).stopCb = false := by
    have := mt hw.stopCb
    rw [ht, Awaiter.settle_stopCb]
    simpa [hcb] using this
  have hphase : (t i).phase = .suspended := by
    rw [ht, Awaiter.settle_phase, hw.phase, hphase]
  have hres : (t i).resumed = (s i).resumed + 1 := by
    rw [ht, Awaiter.settle_resumed, hw.resumed, hresumed]
  have hop : (t i).op = (s i).op.cancel := by
    rw [ht, ← hop, ← hw.op]
    rfl
  cases hs' : (s i).op with
  | absent => simp [hs', Op.ownResult] at hown
  | pending => simp [hs', Op.ownResult] at hown
  | delivered ec =>
    have hec : ec ≠ .operationAborted := by simpa [hs', Op.ownResult] using hown
    have hpos : 0 < (s i).resumed := hs.woken i he ec hs' hec
    refine ⟨[], t, rfl, ⟨hphase, ⟨ec, ?_⟩, by simp [he], by simp [hcb]⟩, by omega⟩
    simp [hop, hs']
  | queued ec r =>
    have hec : ec ≠ .operationAborted := by simpa [hs', Op.ownResult] using hown
    rw [hs'] at hop
    obtain ⟨u, hu, hures, huop, huphase, hucb⟩ := deliver_again obj he hop hec
    refine ⟨[.at i .deliver], u, by rw [Steps.run_cons_of hu, Steps.run_nil],
      ⟨huphase.trans hphase, ⟨ec, huop⟩, by simp [he], by simp [hucb hcb]⟩, by omega⟩

/-- With an expiry an overtaken callback reads the awaiter after the resumption. -/
theorem read_late (hs : Consistent opts s) (he : (opts i).hasExpiry = true)
    (hin : ¬InTime opts i s e) (h : step opts obj s e = some t) : (t i).stale = true := by
  simp only [InTime, not_forall, Bool.not_eq_false] at hin
  obtain ⟨x, rfl, hcall, hover⟩ := hin
  have hreached : (s i).anyReached = true := by simpa [Awaiter.overtaken, he] using hover
  have hpos : 0 < (s i).resumed := by simp [(hs.flagged i he).resumed, hreached]
  rcases step_view hs.ordered h i with ⟨y, b, c, hx, hd, ht⟩ | ⟨hne, _⟩
  swap
  · exact absurd rfl (hne x)
  obtain rfl : x = y := by simpa using hx
  rw [ht, Awaiter.settle_stale]
  obtain ⟨c', hc, ⟨rfl, _⟩ | ⟨hw, _⟩⟩ := hd.called hcall
  · simp [Awaiter.touch, (hc.facts (hs.ordered i)).2.2.2.1, hpos]
  · simp [hw.stale, (hc.facts (hs.ordered i)).2.2.2.1, hpos]

/-- At most one handler resumes the coroutine and none uses the awaiter after that, exactly
when the stop callback is never called behind the back of another handler: any call that is
not in time can be followed by a violation. -/
theorem resumed_at_most_once (opts : ι → Options) (obj : ι → κ) (i : ι) :
    (∀ (es : List (Event ι κ τ)) (s : ι → Awaiter τ),
      Steps.run (step opts obj) start es = some s →
      Steps.Along (step opts obj) (InTime opts i) start es → (s i).Sound) ∧
    ∀ (es : List (Event ι κ τ)) (s t : ι → Awaiter τ) (e : Event ι κ τ),
      Steps.run (step opts obj) start es = some s → step opts obj s e = some t →
      ¬InTime opts i s e →
      ∃ (fs : List (Event ι κ τ)) (u : ι → Awaiter τ),
        Steps.run (step opts obj) t fs = some u ∧ ¬(u i).Sound := by
  refine ⟨fun es s h ha => sound_run ha h, fun es s t e h ht hin => ?_⟩
  have hs := consistent_run h
  cases he : (opts i).hasExpiry with
  | true =>
    have hstale := read_late hs he hin ht
    exact ⟨[], t, rfl, fun hsound => by simp [hsound.fresh] at hstale⟩
  | false =>
    obtain ⟨fs, u, hu, _, htwice⟩ := resumed_twice hs he hin ht
    exact ⟨fs, u, hu, fun hsound => by have := hsound.once; omega⟩

/-- A result already queued when the stop callback runs is delivered to a dead awaiter. -/
theorem not_resumed_at_most_once :
    ¬∀ (opts : Unit → Options) (obj : Unit → Unit) (es : List (Event Unit Unit Unit))
      (s : Unit → Awaiter Unit),
      Steps.run (step opts obj) start es = some s → ∀ i, (s i).Sound := by
  intro h
  have hsound := h (fun _ => ⟨true, false⟩) id
    [.at () .suspend, .at () .asyncWait, .at () .emplace, .at () (.complete .none ()),
      .at () .requestStop, .at () .runStop, .at () .deliver] _ rfl ()
  exact absurd hsound.once (by decide)

/-- The executor runs no handler of awaiter `i` before `await_suspend` is through. -/
def AfterSuspend (i : ι) (s : ι → Awaiter τ) (e : Event ι κ τ) : Prop :=
  e = .at i .deliver ∨ e = .at i .deliverTimer → (s i).phase = .suspended

/-- A handler that has set the flag has also taken the stop callback back. -/
def Awaiter.Disarmed (a : Awaiter τ) : Prop :=
  a.anyReached = true → a.phase = .suspended ∧ a.stopCb = false

omit [Inhabited τ] in
theorem Awaiter.Disarmed.did {o : Options} {a b : Awaiter τ} {x : Act τ} {c : Bool}
    (hord : Ordered o a) (h : Disarmed a)
    (hx : x = .deliver ∨ x = .deliverTimer → a.phase = .suspended) (hd : Did o a x b c) :
    Disarmed b := by
  have hwon {a' : Awaiter τ} (hord' : Ordered o a') (hw : Won o a' b) : b.stopCb = false := by
    cases hb : b.stopCb with
    | false => rfl
    | true =>
      have := (hord'.armed (hw.stopCb hb).1).1
      simp [(hw.stopCb hb).2] at this
  intro hr
  cases hd with
  | decline hp => simpa [hp] using (h hr).1
  | initiate hp => simpa [hp] using (h hr).1
  | wait hp => simpa [hp] using (h hr).1
  | arm hp _ => simpa [hp] using (h hr).1
  | completed ec r _ ho _ _ hw =>
    have hord' := hord.setOp (.delivered ec) (by simp [ho]) (by simp) (by simp)
    exact ⟨hw.phase.trans (hx (.inl rfl)), hwon hord' hw⟩
  | timedOut _ ht _ hw =>
    have hord' := hord.setTimer .delivered (by simp [ht])
    exact ⟨hw.phase.trans (hx (.inr rfl)), hwon hord' hw⟩
  | lost _ c hc => exact ⟨(hc.facts hord).1, (hc.facts hord).2.2.2.2.2.2.1⟩
  | stopped _ b c hc _ hw =>
    exact ⟨hw.phase.trans (hc.facts hord).1, hwon (hord.called hc) hw⟩
  | _ => exact h hr

theorem disarmed_step (hs : Consistent opts s) (hdis : (s i).Disarmed)
    (he : AfterSuspend i s e) (h : step opts obj s e = some t) : (t i).Disarmed := by
  rcases step_view hs.ordered h i with ⟨x, b, c, hx, hd, ht⟩ | ⟨_, ⟨ht, _⟩ | ⟨ht, _⟩⟩
  · have hb := hdis.did (hs.ordered i) (fun h => he (by rw [hx]; simpa using h)) hd
    intro hr
    rw [ht] at hr ⊢
    simpa using hb (by simpa using hr)
  · exact ht ▸ hdis
  · exact ht ▸ hdis

/-- With an expiry the stop callback is always in time once handlers wait for
`await_suspend`. -/
theorem inTime_of_expiry (hs : Consistent opts s) (hdis : (s i).Disarmed)
    (he : (opts i).hasExpiry = true) (ha : Steps.Along (step opts obj) (AfterSuspend i) s es) :
    Steps.Along (step opts obj) (InTime opts i) s es := by
  induction es generalizing s with
  | nil => trivial
  | cons e es ih =>
    refine ⟨?_, fun t ht => ih (consistent_step hs ht) (disarmed_step hs hdis ha.1 ht) (ha.2 t ht)⟩
    intro x hx hcall
    cases hr : (s i).anyReached with
    | false => simpa [Awaiter.overtaken, he] using hr
    | true =>
      obtain ⟨hphase, hcb⟩ := hdis hr
      cases x <;> simp [Awaiter.callsBack, hphase, hcb] at hcall

/-- The operation of awaiter `i` is aborted by nobody but its own handlers, unless an expiry
or a stop already asked for still resumes the coroutine. -/
def Heeded (opts : ι → Options) (obj : ι → κ) (i : ι) (s : ι → Awaiter τ)
    (e : Event ι κ τ) : Prop :=
  (opts i).hasExpiry = true ∨ InTime opts i s e ∧
    ((s i).op = .pending →
      ForeignCancel opts obj s i e ∨ (∃ r, e = .at i (.complete .operationAborted r)) →
      (opts i).enableStop = true ∧ (s i).stopRequested = true)

theorem awake_step (hs : Consistent opts s) (he : (opts i).hasExpiry = false)
    (hawake : (s i).Awake (opts i)) (hh : Heeded opts obj i s e)
    (h : step opts obj s e = some t) : (t i).Awake (opts i) := by
  obtain hexp | ⟨-, hh⟩ := hh
  · simp [he] at hexp
  rcases step_view hs.ordered h i with ⟨x, b, c, hx, hd, ht⟩ | ⟨_, ⟨ht, _⟩ | ⟨ht, hf⟩⟩
  · rw [ht]
    refine hawake.did he (hs.ordered i) (fun r hr => ?_) hd
    subst hr
    cases hd with
    | complete _ _ ho => exact hh ho (.inr ⟨r, hx⟩)
    | lost _ _ hc => cases hc
    | stopped _ _ _ hc => cases hc
  · exact ht ▸ hawake
  · exact ht ▸ hawake.abortOp fun hp => hh hp (.inl hf)

theorem awake_run (he : (opts i).hasExpiry = false)
    (ha : Steps.Along (step opts obj) (Heeded opts obj i) start es)
    (h : Steps.run (step opts obj) start es = some s) : (s i).Awake (opts i) := by
  have hinv : Consistent opts s ∧ (s i).Awake (opts i) :=
    Steps.invariant_run (I := fun s => Consistent opts s ∧ (s i).Awake (opts i))
      (fun s e t hs hh ht => ⟨consistent_step hs.1 ht, awake_step hs.1 he hs.2 hh ht⟩)
      ⟨consistent_start, by constructor <;> simp [start, Awaiter.init]⟩ ha h
  exact hinv.2

theorem settled_once (ha : Steps.Along (step opts obj) (Heeded opts obj i) start es)
    (h : Steps.run (step opts obj) start es = some s) (hset : (s i).Settled (opts i)) :
    (s i).resumed = 1 := by
  have hs := consistent_run h
  cases he : (opts i).hasExpiry with
  | true =>
    have hflag := hs.flagged i he
    simp [hflag.resumed, hflag.through (hset.timer he)]
  | false =>
    have hin : Steps.Along (step opts obj) (InTime opts i) start es :=
      ha.imp fun s e hh => (hh.resolve_left (by simp [he])).1
    have hle := (single_run he hin h).once
    have hpos : 0 < (s i).resumed := by
      have hawake := awake_run he ha h
      obtain ⟨ec, hop⟩ := hset.op
      by_cases hec : ec = .operationAborted
      · rcases hawake.aborted (.inr (hec ▸ hop)) with hpos | ⟨hstop, hreq⟩
        · exact hpos
        · exact (hawake.armed hstop hset.phase).resolve_left fun hcb => hset.stopCb ⟨hcb, hreq⟩
      · exact hs.woken i he ec hop hec
    omega

omit [Inhabited τ] in
theorem Awaiter.emplace_quiet {o : Options} {a : Awaiter τ}
    (hstop : ¬(o.enableStop = true ∧ a.stopRequested = true)) :
    ∃ b : Awaiter τ, a.emplace o = (b, false) ∧ b.phase = .suspended ∧ b.op = a.op ∧
      b.stopRequested = a.stopRequested ∧ b.resumed = a.resumed := by
  unfold Awaiter.emplace
  split
  · next hen =>
    have hreq : a.stopRequested = false := by simpa [hen] using hstop
    refine ⟨{ a with phase := .suspended, stopCb := true }, ?_, rfl, rfl, rfl, rfl⟩
    simp [hreq, setStopCb]
  · exact ⟨_, rfl, rfl, rfl, rfl, rfl⟩

/-- No handler is left that would resume the coroutine. -/
structure Ignored (opts : ι → Options) (i : ι) (s : ι → Awaiter τ) : Prop where
  consistent : Consistent opts s
  hasExpiry : (opts i).hasExpiry = false
  op : (s i).op = .delivered .operationAborted
  stop : ¬((opts i).enableStop = true ∧ (s i).stopRequested = true)

omit [DecidableEq ι] [Inhabited τ] in
theorem Ignored.settled (h : Ignored opts i s) (hp : (s i).phase = .suspended) :
    (s i).Settled (opts i) :=
  ⟨hp, ⟨_, h.op⟩, by simp [h.hasExpiry], fun hcb =>
    h.stop ⟨((h.consistent.ordered i).armed hcb.1).1, hcb.2⟩⟩

theorem Ignored.emplace (h : Ignored opts i s) (obj : ι → κ) (hp : (s i).phase = .waiting) :
    ∃ u, step opts obj s (.at i .emplace) = some u ∧ (u i).Settled (opts i) ∧
      (u i).resumed = (s i).resumed := by
  obtain ⟨b, hb, hphase, hop, hreq, hres⟩ := Awaiter.emplace_quiet h.stop
  have hact : (s i).act (opts i) .emplace = some (b, false) := by simp [Awaiter.act, hp, hb]
  have hu := step_at obj hact
  have hignored : Ignored opts i (Function.update s i b) :=
    ⟨consistent_step h.consistent hu, h.hasExpiry, by simp [hop, h.op], by simpa [hreq] using h.stop⟩
  exact ⟨_, hu, hignored.settled (by simp [hphase]), by simp [hres]⟩

/-- `await_suspend` comes to its end without resuming anybody. -/
theorem Ignored.finish (h : Ignored opts i s) (obj : ι → κ) :
    ∃ fs u, Steps.run (step opts obj) s fs = some u ∧ (u i).Settled (opts i) ∧
      (u i).resumed = (s i).resumed := by
  have hord := h.consistent.ordered i
  cases hp : (s i).phase with
  | fresh => exact absurd h.op (by simp [hord.begun (.inl hp)])
  | declined => exact absurd h.op (by simp [hord.begun (.inr hp)])
  | suspended => exact ⟨[], s, rfl, h.settled hp, rfl⟩
  | waiting =>
    obtain ⟨u, hu, hset, hres⟩ := h.emplace obj hp
    exact ⟨[.at i .emplace], u, by rw [Steps.run_cons_of hu, Steps.run_nil], hset, hres⟩
  | initiated =>
    have hact : (s i).act (opts i) .asyncWait = some ((s i).asyncWait (opts i), false) := by
      simp [Awaiter.act, hp]
    have hv := step_at obj hact
    have hignored : Ignored opts i (Function.update s i ((s i).asyncWait (opts i))) :=
      ⟨consistent_step h.consistent hv, h.hasExpiry, by simpa [Awaiter.asyncWait] using h.op,
        by simpa [Awaiter.asyncWait] using h.stop⟩
    obtain ⟨u, hu, hset, hres⟩ := hignored.emplace obj (by simp [Awaiter.asyncWait])
    refine ⟨[.at i .asyncWait, .at i .emplace], u, ?_, hset, ?_⟩
    · rw [Steps.run_cons_of hv, Steps.run_cons_of hu, Steps.run_nil]
    · simpa [Awaiter.asyncWait] using hres

/-- The completion handler takes an aborted operation for somebody else's business. -/
theorem never_resumed (obj : ι → κ) {r : τ} (hs : Consistent opts s) (he : (opts i).hasExpiry = false)
    (hop : (s i).op = .queued .operationAborted r)
    (hstop : ¬((opts i).enableStop = true ∧ (s i).stopRequested = true)) :
    ∃ fs u, Steps.run (step opts obj) s fs = some u ∧ (u i).Settled (opts i) ∧
      (u i).resumed = (s i).resumed := by
  have hact : (s i).act (opts i) .deliver = some ((s i).setOp (.delivered .operationAborted), false) := by
    simp only [Awaiter.act, hop]
    rfl
  have ht := step_at obj hact
  have hignored : Ignored opts i (Function.update s i ((s i).setOp (.delivered .operationAborted))) :=
    ⟨consistent_step hs ht, he, by simp [Awaiter.setOp], by simpa [Awaiter.setOp] using hstop⟩
  obtain ⟨fs, u, hu, hset, hres⟩ := hignored.finish obj
  refine ⟨.at i .deliver :: fs, u, by rw [Steps.run_cons_of ht, hu], hset, ?_⟩
  simpa [Awaiter.setOp] using hres

/-- Once all handlers of the awaiter are through, its coroutine has been resumed exactly once,
exactly when every step of the run is heeded: any other step can be followed by a state in
which that fails. -/
theorem resumed_exactly_once (opts : ι → Options) (obj : ι → κ) (i : ι) :
    (∀ (es : List (Event ι κ τ)) (s : ι → Awaiter τ),
      Steps.run (step opts obj) start es = some s →
      Steps.Along (step opts obj) (Heeded opts obj i) start es →
      (s i).Settled (opts i) → (s i).resumed = 1) ∧
    ∀ (es : List (Event ι κ τ)) (s t : ι → Awaiter τ) (e : Event ι κ τ),
      Steps.run (step opts obj) start es = some s → step opts obj s e = some t →
      ¬Heeded opts obj i s e →
      ∃ (fs : List (Event ι κ τ)) (u : ι → Awaiter τ),
        Steps.run (step opts obj) t fs = some u ∧ (u i).Settled (opts i) ∧ (u i).resumed ≠ 1 := by
  refine ⟨fun es s h ha => settled_once ha h, fun es s t e h ht hh => ?_⟩
  have hs := consistent_run h
  simp only [Heeded, not_or, not_and, Bool.not_eq_true] at hh
  obtain ⟨he, hh⟩ := hh
  by_cases hin : InTime opts i s e
  swap
  · obtain ⟨fs, u, hu, hset, htwice⟩ := resumed_twice hs he hin ht
    exact ⟨fs, u, hu, hset, by omega⟩
  have hh := hh hin
  simp only [Classical.not_imp] at hh
  obtain ⟨hp, hwho, hstop⟩ := hh
  have hzero : (s i).resumed = 0 := (hs.ordered i).early he (.inr hp)
  have hnext : ∃ r, t i = (s i).setOp (.queued .operationAborted r) := by
    rcases step_view hs.ordered ht i with ⟨x, b, c, rfl, hd, hb⟩ | ⟨hne, ⟨_, hf⟩ | ⟨hb, _⟩⟩
    · rcases hwho with hf | ⟨r, hr⟩
      · exact absurd rfl hf.1
      · obtain rfl : x = .complete .operationAborted r := by simpa using hr
        cases hd with
        | complete => exact ⟨r, hb⟩
        | lost _ _ hc => cases hc
        | stopped _ _ _ hc => cases hc
    · rcases hwho with hf' | ⟨r, hr⟩
      · exact absurd hf' hf
      · exact absurd hr (hne _)
    · exact ⟨default, by simp [hb, Awaiter.abortOp, hp, Op.cancel]⟩
  obtain ⟨r, hr⟩ := hnext
  obtain ⟨fs, u, hu, hset, hres⟩ := never_resumed obj (r := r) (consistent_step hs ht) he
    (by simp [hr, Awaiter.setOp]) (by simpa [hr, Awaiter.setOp] using hstop)
  exact ⟨fs, u, hu, hset, by simp [hres, hr, Awaiter.setOp, hzero]⟩

/-- The user cancels the object under an awaiter that has neither timer nor stop. -/
theorem not_resumed_exactly_once :
    ¬∀ (opts : Unit → Options) (obj : Unit → Unit) (es : List (Event Unit Unit Unit))
      (s : Unit → Awaiter Unit), Steps.run (step opts obj) start es = some s →
      ∀ i, (s i).Settled (opts i) → (s i).resumed = 1 := by
  intro h
  have hone := h (fun _ => ⟨false, false⟩) id
    [.at () .suspend, .at () .asyncWait, .at () .emplace, .cancel (), .at () .deliver] _ rfl ()
    ⟨rfl, ⟨.operationAborted, rfl⟩, by decide, by decide⟩
  exact absurd hone (by decide)

end System

end Jkl.Async
