import Jkl.Async.StopStateEffects

/-! What `stop_source`, `stop_token` and `stop_callback` promise, in every interleaving. -/
namespace Jkl.StopState

variable {T C K : Type} {s s' : State T C K} {t u : T} {f g : Frame C K}
  {rest : List (Frame C K)} {cb : C} {k : K}

/-- The callback that is being called. -/
def Frame.callee : Frame C K → Option C
  | .running _ cb _ _ | .executing _ cb => some cb
  | _ => none

/-- Where a callback is while it is called. -/
theorem Frame.Holds.callee (h : f.Holds s t) (hc : f.callee = some cb) :
    s.phase cb = .constructing t ∨ s.current = some cb ∨
      s.phase cb = .destroying t ∨ s.phase cb = .dead := by
  cases f with
  | running k c anyMore n =>
    obtain rfl : c = cb := Option.some.inj hc
    rcases h.2 with ⟨hser, -⟩ | hcut
    · exact .inr (.inl hser.current)
    · exact .inr (.inr hcut.phase)
  | executing tk c =>
    obtain rfl : c = cb := Option.some.inj hc
    exact .inl h.1
  | _ => cases hc

namespace State

theorem Shared.isLocked_iff (h : s.Shared) : isLocked s.word = true ↔ s.holder ≠ none := by
  rw [h.word, isLocked_pack, Option.isSome_iff_ne_none]

theorem Shared.isStopRequested_iff (h : s.Shared) :
    isStopRequested s.word = true ↔ s.winner ≠ none := by
  rw [h.word, isStopRequested_pack, Option.isSome_iff_ne_none]

/-- A call that holds the lock is the innermost one of the thread that holds it. -/
theorem Inv.eq_head_of_locked (h : s.Inv) (hf : f ∈ s.stack t) (hl : f.locked = true) :
    s.holder = some t ∧ s.stack t = f :: (s.stack t).tail := by
  refine ⟨((h.stack t).holds f hf).holder hl, ?_⟩
  cases hs : s.stack t with
  | nil => simp [hs] at hf
  | cons g rest =>
    rcases List.mem_cons.1 (hs ▸ hf) with rfl | hmem
    · rfl
    · have hr := (h.stack t).below f (by simpa [hs] using hmem)
      cases f <;> simp_all [Frame.locked, Frame.runs]

/-- While a destructor is at its end, only its own thread may be in the callback. -/
theorem Inv.callee_of_destroyed (h : s.Inv) (hs : s.stack t = .destroyed cb :: rest)
    (hf : f ∈ s.stack u) (hc : f.callee = some cb) : u = t := by
  obtain ⟨hp, -, hl⟩ := h.top hs
  rcases ((h.stack u).holds f hf).callee hc with hpu | hcur | hpu | hpu
  · cases hpu.symm.trans hp
  · exact absurd hcur hl.current
  · exact Phase.destroying.inj (hpu.symm.trans hp)
  · cases hpu.symm.trans hp

theorem Inv.winner_of_winning (h : s.Inv) (hf : f ∈ s.stack t) (hw : f.winning = true) :
    s.winner = some t :=
  ((h.stack t).holds f hf).winner hw

/-- Either the call that set the flag is under way, or it has returned. -/
theorem Inv.winning_of_winner (h : s.Inv) (hw : s.winner = some t) :
    s.wins = 1 ∧ (∀ f ∈ s.stack t, f.winning = false) ∨
    s.wins = 0 ∧ ∃ f, (s.stack t).filter Frame.winning = [f] := by
  have hsum := (h.stack t).winning hw
  rw [List.countP_eq_length_filter] at hsum
  rcases Nat.add_eq_one_iff.1 hsum with ⟨hwins, hlen⟩ | ⟨hwins, hlen⟩
  · exact .inr ⟨hwins, List.length_eq_one_iff.1 hlen⟩
  · refine .inl ⟨hwins, fun f hf => ?_⟩
    by_contra hwf
    have hmem : f ∈ (s.stack t).filter Frame.winning :=
      List.mem_filter.2 ⟨hf, by simpa using hwf⟩
    simp [List.length_eq_zero_iff.1 hlen] at hmem

/-- Once the `__request_stop` that set the flag has returned, a registered callback was called. -/
theorem Inv.finished (h : s.Inv) (hwins : s.wins ≠ 0) {x : Intrusive.Cell C Callback}
    (hp : s.phase cb = .alive) (hx : s.links.cell cb = some x) (hstate : x.data.state = true) :
    s.starts cb = 1 ∧ x.data.callbackFinishedExecuting = true ∧ x.data.isRemoved = none := by
  obtain ⟨hq, hcur⟩ := h.shared.done hwins
  obtain ⟨y, hy, hreg, -⟩ := (h.shared.callback cb).alive hp
  obtain rfl : x = y := Option.some.inj (hx.symm.trans hy)
  obtain ⟨-, z, hz⟩ := hreg hstate
  obtain rfl : x = z := Option.some.inj (hx.symm.trans hz.cell)
  have hfin : x.data.callbackFinishedExecuting = true := by
    rcases hz.somewhere with hmem | hc | hfin
    · simp [hq] at hmem
    · simp [hcur] at hc
    · exact hfin
  refine ⟨((h.shared.callback cb).finished x hx hfin).1, hfin, ?_⟩
  by_contra hn
  obtain ⟨n, hn⟩ := Option.ne_none_iff_exists'.1 hn
  simpa [hcur] using (hz.isRemoved n hn).1

variable [Fintype T] [DecidableEq T] [DecidableEq C] [DecidableEq K]

/-- Where the events lead, from a new `stop_source`. -/
def after (k : K) (es : List (Event T C K)) : State T C K :=
  (Steps.run stepWithRoom (State.init k) es).getD (State.init k)

theorem reachable_after (k : K) (es : List (Event T C K)) : Reachable k (after k es) := by
  rw [after]
  cases hrun : Steps.run stepWithRoom (State.init k) es with
  | none => exact ⟨[], rfl⟩
  | some s => exact ⟨es, hrun⟩

/-- Thread 0 registers a callback with a token that it gets for that. -/
def registration : List (Event (Fin 2) ℕ ℕ) :=
  [.getToken 0 0 1, .construct 0 (.copied 1) 0] ++ List.replicate 5 (.go 0 false)

/-- The lock bit says whether a call is in its critical section, there is never more than one
such call, the list is well formed, and only that call changes it. -/
theorem Reachable.lock_exclusive (h : Reachable k s) :
    (isLocked s.word = true ↔ ∃ t, ∃ f ∈ s.stack t, f.locked = true) ∧
    (∀ t u f g, f ∈ s.stack t → f.locked = true → g ∈ s.stack u → g.locked = true →
      t = u ∧ s.stack t = f :: (s.stack t).tail ∧ f = g) ∧
    s.links.Represents s.queue ∧
    ∀ e s', s.stepWithRoom e = some s' → s'.queue ≠ s.queue →
      ∃ t spurious f rest, e = .go t spurious ∧ s.stack t = f :: rest ∧ f.locked = true := by
  have hinv := h.inv
  refine ⟨?_, ?_, hinv.shared.links, ?_⟩
  · rw [hinv.shared.isLocked_iff]
    constructor
    · intro hh
      obtain ⟨t, ht⟩ := Option.ne_none_iff_exists'.1 hh
      obtain ⟨f, hf, hl⟩ := (hinv.stack t).locks ht
      exact ⟨t, f, List.mem_of_mem_head? hf, hl⟩
    · rintro ⟨t, f, hf, hl⟩
      simp [(hinv.eq_head_of_locked hf hl).1]
  · intro t u f g hf hfl hg hgl
    obtain ⟨ht, hst⟩ := hinv.eq_head_of_locked hf hfl
    obtain ⟨hu, hsu⟩ := hinv.eq_head_of_locked hg hgl
    obtain rfl : t = u := Option.some.inj (ht.symm.trans hu)
    exact ⟨rfl, hst, (List.cons.inj (hst.symm.trans hsu)).1⟩
  · intro e s' he hne
    rcases effect_of_step he with ⟨t, spurious, f, rest, rfl, hs, heff⟩ | ⟨hq, -⟩
    · refine ⟨t, spurious, f, rest, rfl, hs, ?_⟩
      by_contra hl
      exact hne (heff.queue (by simpa using hl))
    · exact absurd hq hne

/-- Thread 1, in the destructor, is about to unlock. -/
theorem Reachable.lock_exclusive_destroy : ∃ s : State (Fin 2) ℕ ℕ, Reachable 0 s ∧
    s.stack 1 = [.unlockRemoved 0] ∧ isLocked s.word = true ∧
    s.links.Represents s.queue := by
  have h := reachable_after 0 (registration ++ .destroy 1 0 :: List.replicate 3 (.go 1 false))
  have hf : Frame.unlockRemoved 0 ∈ (after 0 (registration ++
      .destroy 1 0 :: List.replicate 3 (.go 1 false))).stack 1 := by
    decide +kernel
  exact ⟨_, h, by decide +kernel, h.lock_exclusive.1.2 ⟨1, _, hf, rfl⟩, h.lock_exclusive.2.2.1⟩

/-- A callback that is gone stays so, and is not called any more. -/
theorem Inv.dead_step {e : Event T C K} (h : s.Inv) (hp : s.phase cb = .dead)
    (he : s.stepWithRoom e = some s') : s'.phase cb = .dead ∧ s'.starts cb = s.starts cb := by
  rcases effect_of_step he with ⟨t, spurious, f, rest, rfl, hs, heff⟩ | ⟨-, hst, -, hd⟩
  · have hf : f.Holds s t := h.top hs
    have ho : f.object ≠ some cb := by
      intro ho
      rcases hf.phase ho with hpf | hpf <;> cases hpf.symm.trans hp
    have hphase : s'.phase cb = s.phase cb := by
      rcases heff.own with ⟨-, -, -, hpp⟩ | ⟨-, c, hc, hpp⟩
      · rw [hpp]
      · have hne : cb ≠ c := by
          rintro rfl
          exact ho hc
        rcases hpp with hpp | ⟨-, hpp⟩ <;> simp [hpp, hne]
    refine ⟨hphase.trans hp, heff.starts cb ho ?_⟩
    -- `__request_stop` would call the callback that it has, which is still there
    rintro j b rfl
    obtain ⟨-, hser⟩ := hf
    obtain ⟨-, -, x, hx, -⟩ := (h.shared.callback cb).current hser.current
    simp [(h.shared.callback cb).dead hp] at hx
  · exact ⟨hd cb hp, congrFun hst cb⟩

theorem Inv.dead_run {es : List (Event T C K)} (h : s.Inv) (hp : s.phase cb = .dead)
    (hrun : Steps.run stepWithRoom s es = some s') :
    s'.phase cb = .dead ∧ s'.starts cb = s.starts cb := by
  have hstep : ∀ (v : State T C K) e w, v.Inv ∧ v.phase cb = .dead ∧
      v.starts cb = s.starts cb → v.stepWithRoom e = some w → w.Inv ∧ w.phase cb = .dead ∧ w.starts cb = s.starts cb := by
    rintro v e w ⟨hv, hd, hst⟩ hw
    obtain ⟨hd', hst'⟩ := hv.dead_step hd hw
    exact ⟨hv.step hw, hd', hst'.trans hst⟩
  exact (Steps.invariant_of_step hstep ⟨h, hp, rfl⟩ hrun).2

/-- A callback is called at most once. When its destructor returns no other thread is in it, and
it is never called after that. -/
theorem Reachable.called_once (h : Reachable k s) (cb : C) :
    s.starts cb ≤ 1 ∧
    (∀ t rest, s.stack t = .destroyed cb :: rest →
      ∀ u, ∀ f ∈ s.stack u, f.callee = some cb → u = t) ∧
    (s.phase cb = .dead → ∀ es s', Steps.run stepWithRoom s es = some s' →
      s'.phase cb = .dead ∧ s'.starts cb = s.starts cb) := by
  have hinv := h.inv
  refine ⟨(hinv.shared.callback cb).starts, ?_, fun hp es s' => hinv.dead_run hp⟩
  exact fun t rest hs u f => hinv.callee_of_destroyed hs

/-- Thread 1 has called the callback from `request_stop`, and thread 0 has destroyed it. -/
theorem Reachable.called_once_destroy : ∃ s : State (Fin 2) ℕ ℕ, Reachable 0 s ∧ s.phase 0 = .dead ∧
    s.starts 0 = 1 ∧ ∀ es s', Steps.run stepWithRoom s es = some s' → s'.starts 0 = 1 := by
  have h := reachable_after 0 (registration ++
    .requestStop 1 0 :: List.replicate 9 (.go 1 false) ++
    .destroy 0 0 :: List.replicate 8 (.go 0 false))
  refine ⟨_, h, by decide +kernel, by decide +kernel, fun es s' hes => ?_⟩
  exact ((h.called_once 0).2.2 (by decide +kernel) es s' hes).2.trans (by decide +kernel)

/-- The request is never taken back. -/
theorem Inv.winner_step {e : Event T C K} (h : s.Inv) (hw : s.winner ≠ none)
    (he : s.stepWithRoom e = some s') : s'.winner = s.winner := by
  rcases effect_of_step he with ⟨t, spurious, f, rest, rfl, hs, heff⟩ | ⟨-, -, hwin, -⟩
  · apply heff.winner.resolve_right
    simpa using h.shared.isStopRequested_iff.2 hw
  · exact hwin

theorem Inv.requested_run {es : List (Event T C K)} (h : s.Inv)
    (hreq : isStopRequested s.word = true) (hrun : Steps.run stepWithRoom s es = some s') :
    isStopRequested s'.word = true := by
  have hstep : ∀ (v : State T C K) e w, v.Inv ∧ v.winner ≠ none → v.stepWithRoom e = some w →
      w.Inv ∧ w.winner ≠ none := by
    rintro v e w ⟨hv, hwin⟩ hw
    exact ⟨hv.step hw, hv.winner_step hwin hw ▸ hwin⟩
  obtain ⟨hinv, hwin⟩ :=
    Steps.invariant_of_step hstep ⟨h, h.shared.isStopRequested_iff.1 hreq⟩ hrun
  exact hinv.shared.isStopRequested_iff.2 hwin

/-- `__request_stop` returns true at most once. From the request on there is one call that will,
or that has; the request stays, and once that call has returned every registered callback was
called, and is through. -/
theorem Reachable.request_stop (h : Reachable k s) :
    s.wins ≤ 1 ∧
    (isStopRequested s.word = true ↔ s.wins = 1 ∨ ∃ t, ∃ f ∈ s.stack t, f.winning = true) ∧
    (∀ t u f g, f ∈ s.stack t → f.winning = true → g ∈ s.stack u → g.winning = true →
      s.wins = 0 ∧ t = u ∧ f = g) ∧
    (s.wins = 1 → ∀ cb x, s.phase cb = .alive → s.links.cell cb = some x →
      x.data.state = true → s.starts cb = 1 ∧ x.data.callbackFinishedExecuting = true ∧
        x.data.isRemoved = none) ∧
    (isStopRequested s.word = true → ∀ es s', Steps.run stepWithRoom s es = some s' →
      isStopRequested s'.word = true) := by
  have hinv := h.inv
  refine ⟨?_, ?_, ?_, ?_, fun hreq es s' => hinv.requested_run hreq⟩
  · cases hw : s.winner with
    | none => simp [hinv.shared.wins hw]
    | some t => exact Nat.le_of_add_right_le ((hinv.stack t).winning hw).le
  · rw [hinv.shared.isStopRequested_iff]
    constructor
    · intro hw
      obtain ⟨t, ht⟩ := Option.ne_none_iff_exists'.1 hw
      rcases hinv.winning_of_winner ht with ⟨hwins, -⟩ | ⟨-, f, hf⟩
      · exact .inl hwins
      · have hmem : f ∈ (s.stack t).filter Frame.winning := by simp [hf]
        exact .inr ⟨t, f, List.mem_filter.1 hmem⟩
    · rintro (hwins | ⟨t, f, hf, hwf⟩) hw
      · simp [hinv.shared.wins hw] at hwins
      · simp [hinv.winner_of_winning hf hwf] at hw
  · intro t u f g hf hwf hg hwg
    have ht := hinv.winner_of_winning hf hwf
    have hu := hinv.winner_of_winning hg hwg
    obtain rfl : t = u := Option.some.inj (ht.symm.trans hu)
    rcases hinv.winning_of_winner ht with ⟨-, hnone⟩ | ⟨hwins, e, he⟩
    · simp [hnone f hf] at hwf
    · have hfe : f ∈ (s.stack t).filter Frame.winning := List.mem_filter.2 ⟨hf, hwf⟩
      have hge : g ∈ (s.stack t).filter Frame.winning := List.mem_filter.2 ⟨hg, hwg⟩
      rw [he, List.mem_singleton] at hfe hge
      exact ⟨hwins, rfl, hfe.trans hge.symm⟩
  · exact fun hwins cb x hp hx => hinv.finished (by simp [hwins]) hp hx

/-- Thread 1 has requested a stop. -/
theorem Reachable.request_stop_returned : ∃ s : State (Fin 2) ℕ ℕ, Reachable 0 s ∧
    s.wins = 1 ∧ isStopRequested s.word = true ∧ ∀ x, s.phase 0 = .alive →
      s.links.cell 0 = some x → x.data.state = true →
        s.starts 0 = 1 ∧ x.data.callbackFinishedExecuting = true ∧
          x.data.isRemoved = none := by
  have h := reachable_after 0 (registration ++
    .requestStop 1 0 :: List.replicate 9 (.go 1 false))
  have hwins : (after 0 (registration ++
      .requestStop 1 0 :: List.replicate 9 (.go 1 false))).wins = 1 := by
    decide +kernel
  exact ⟨_, h, hwins, h.request_stop.2.1.2 (.inl hwins), h.request_stop.2.2.2.1 hwins 0⟩

/-- No source, no token and no registered callback refers to the state. -/
def Unreferenced (s : State T C K) : Prop :=
  s.tokens = [] ∧ s.sources = [] ∧
    ∀ cb x, s.phase cb = .alive → s.links.cell cb = some x → x.data.state = false

/-- The state is not deleted as long as anything refers to it, and when nothing does, it is
deleted as soon as no call is under way. -/
theorem Reachable.deleted (h : Reachable k s) :
    (s.deleted = true → s.Unreferenced) ∧
    ((∀ t, s.stack t = []) → s.Unreferenced → s.deleted = true) := by
  have hinv := h.inv
  constructor
  · intro hd
    have hnil : s.tokens = [] ∧ s.sources = [] ∧ s.refs = [] := by
      by_contra hnil
      exact hinv.shared.deleted hd (hinv.shared.deleter.2 hnil)
    refine ⟨hnil.1, hnil.2.1, fun cb x hp hx => ?_⟩
    obtain ⟨y, hy, hreg, -⟩ := (hinv.shared.callback cb).alive hp
    obtain rfl : x = y := Option.some.inj (hx.symm.trans hy)
    by_contra hs
    have hmem := (hreg (by simpa using hs)).1
    simp [hnil.2.2] at hmem
  · rintro hidle ⟨htok, hsrc, hreg⟩
    have hrefs : s.refs = [] := by
      refine List.eq_nil_iff_forall_not_mem.2 fun cb hmem => ?_
      have hbusy : ∀ t, ¬ (s.phase cb = .constructing t ∨ s.phase cb = .destroying t) := by
        intro t hp
        obtain ⟨f, hf, -⟩ := h.owned.busy cb t hp
        simp [hidle t] at hf
      cases hp : s.phase cb with
      | unborn => exact ((hinv.shared.callback cb).unborn hp).2.1 hmem
      | constructing t => exact hbusy t (.inl hp)
      | alive =>
        obtain ⟨x, hx, -, hloose⟩ := (hinv.shared.callback cb).alive hp
        exact (hloose (hreg cb x hp hx)).1 hmem
      | destroying t => exact hbusy t (.inr hp)
      | dead => exact h.owned.dead cb hp hmem
    have hset : s.deleter ≠ none := fun hn => hinv.shared.deleter.1 hn ⟨htok, hsrc, hrefs⟩
    obtain ⟨t, ht⟩ := Option.ne_none_iff_exists'.1 hset
    by_contra hd
    obtain ⟨f, hf, -⟩ := (hinv.stack t).deletes ht (by simpa using hd)
    simp [hidle t] at hf

/-- The only source is dropped. -/
theorem Reachable.deleted_drop : ∃ s : State (Fin 2) ℕ ℕ, Reachable 0 s ∧
    s.deleted = true ∧ s.Unreferenced := by
  have h := reachable_after (T := Fin 2) (C := ℕ) 0 [.dropSource 0 0, .go 0 false]
  exact ⟨_, h, by decide +kernel, h.deleted.1 (by decide +kernel)⟩

end State

end Jkl.StopState
