import Jkl.Async.StopStateRuns

/-! What a step of a call can change, and so which calls a callback is in the hands of. -/
namespace Jkl.StopState

variable {T C K : Type}

/-- What the innermost call `f` of `t` may do in one step: the callback that it is about stays
with it until it returns, the list changes under the lock only, and a callback is called by its
constructor or by `__request_stop`. -/
structure Effect [DecidableEq C] (s s' : State T C K) (t : T) (f : Frame C K)
    (rest : List (Frame C K)) : Prop where
  elsewhere : ∀ u, u ≠ t → s'.stack u = s.stack u
  own : (∃ fs, s'.stack t = fs ++ rest ∧ fs.filterMap Frame.object = f.object.toList ∧
      s'.phase = s.phase) ∨
    s'.stack t = rest ∧ ∃ cb, f.object = some cb ∧
      (s'.phase = Function.update s.phase cb .alive ∨
        f = .destroyed cb ∧ s'.phase = Function.update s.phase cb .dead)
  queue : f.locked = false → s'.queue = s.queue
  starts : ∀ cb, f.object ≠ some cb → (∀ k b, f ≠ .mark k cb b) → s'.starts cb = s.starts cb
  refs : ∀ cb, f.object ≠ some cb ∨ f = .destroyed cb → (cb ∈ s'.refs ↔ cb ∈ s.refs)
  winner : s'.winner = s.winner ∨ isStopRequested s.word = false

namespace Effect

variable [DecidableEq T] [DecidableEq C] {s s₁ s' : State T C K} {t : T} {f : Frame C K}
  {rest : List (Frame C K)} {cb : C}

/-- The call goes on. -/
theorem turn (fs : List (Frame C K)) (s₁ : State T C K)
    (ho : fs.filterMap Frame.object = f.object.toList) (hst : s₁.stack = s.stack)
    (hp : s₁.phase = s.phase) (hq : f.locked = false → s₁.queue = s.queue)
    (hs : ∀ cb, f.object ≠ some cb → (∀ k b, f ≠ .mark k cb b) → s₁.starts cb = s.starts cb)
    (hr : ∀ cb, f.object ≠ some cb ∨ f = .destroyed cb → (cb ∈ s₁.refs ↔ cb ∈ s.refs))
    (hw : s₁.winner = s.winner ∨ isStopRequested s.word = false) :
    Effect s (s₁.goto t (fs ++ rest)) t f rest where
  elsewhere u hu := by simp [State.goto, hu, hst]
  own := .inl ⟨fs, by simp [State.goto], ho, hp⟩
  queue := hq
  starts := hs
  refs := hr
  winner := hw

/-- The call goes on, and changes none of this. -/
theorem quiet (fs : List (Frame C K)) (s₁ : State T C K)
    (ho : fs.filterMap Frame.object = f.object.toList)
    (heq : (s₁.stack, s₁.phase, s₁.queue, s₁.starts, s₁.refs) =
      (s.stack, s.phase, s.queue, s.starts, s.refs))
    (hw : s₁.winner = s.winner ∨ isStopRequested s.word = false) :
    Effect s (s₁.goto t (fs ++ rest)) t f rest := by
  simp only [Prod.mk.injEq] at heq
  obtain ⟨hst, hp, hq, hs, hr⟩ := heq
  exact turn fs s₁ ho hst hp (fun _ => hq) (fun _ _ _ => by rw [hs]) (fun _ _ => by rw [hr]) hw

/-- The constructor returns. -/
theorem constructed (s₁ : State T C K) (ho : f.object = some cb) (hst : s₁.stack = s.stack)
    (hp : s₁.phase = Function.update s.phase cb .alive) (hq : s₁.queue = s.queue)
    (hs : s₁.starts = s.starts) (hw : s₁.winner = s.winner) (hf : f ≠ .destroyed cb)
    (hr : ∀ c, c ≠ cb → (c ∈ s₁.refs ↔ c ∈ s.refs)) :
    Effect s (s₁.goto t rest) t f rest where
  elsewhere u hu := by simp [State.goto, hu, hst]
  own := .inr ⟨by simp [State.goto], cb, ho, .inl hp⟩
  queue _ := hq
  starts _ _ _ := congrFun hs _
  refs c hc := by
    apply hr
    rintro rfl
    exact hc.elim (fun hne => hne ho) hf
  winner := .inl hw

theorem notAdded {tk : Arg K} (ho : f.object = some cb)
    (hf : f ≠ .destroyed cb) : Effect s (s.notAdded t tk cb rest) t f rest := by
  cases tk with
  | copied k => exact constructed { s with phase := _ } ho rfl rfl rfl rfl rfl hf fun _ _ => Iff.rfl
  | moved k =>
    exact constructed { s with
      phase := Function.update s.phase cb .alive
      tokens := k :: s.tokens
      refs := s.refs.erase cb } ho rfl rfl rfl rfl rfl hf fun c hc => List.mem_erase_of_ne hc

theorem exchange {spurious : Bool} {old : ℕ} {retry : ℕ → Frame C K}
    (h : s.exchange t spurious old retry s₁ rest = some s')
    (ho : ∀ w, (retry w).object = f.object) (h₁ : s.word = old → Effect s s₁ t f rest) :
    Effect s s' t f rest := by
  obtain ⟨w, hw, h⟩ := Option.bind_eq_some_iff.1 h
  split at h
  · obtain rfl := Option.some.inj h
    apply quiet [retry w] s _ rfl (.inl rfl)
    cases hf : f.object <;> simp [ho, hf]
  · rename_i hcond
    simp only [Bool.or_eq_true, not_or, bne_iff_ne, ne_eq, Decidable.not_not] at hcond
    obtain rfl := Option.some.inj h
    exact h₁ ((Option.some.inj (Option.ite_none_left_eq_some.1 hw).2).trans hcond.2)

theorem afterRun {k : K} {anyMore : Bool} (s₁ : State T C K) (ho : f.object = none)
    (heq : (s₁.stack, s₁.phase, s₁.queue, s₁.starts, s₁.refs) =
      (s.stack, s.phase, s.queue, s.starts, s.refs))
    (hw : s₁.winner = s.winner) : Effect s (s₁.afterRun t k anyMore rest) t f rest := by
  simp only [State.afterRun]
  split
  · exact quiet [.relock k none] s₁ (by rw [ho]; rfl) heq (.inl hw)
  · exact quiet [] { s₁ with wins := s₁.wins + 1 } (by rw [ho]; rfl) heq (.inl hw)

theorem release {w least : ℕ} {o : Option C} (s₁ : State T C K) (ho : f.object = o)
    (hst : s₁.stack = s.stack) (hp : s₁.phase = s.phase) (hq : s₁.queue = s.queue)
    (hs : s₁.starts = s.starts) (hw : s₁.winner = s.winner) (hf : ∀ cb, f ≠ .destroyed cb)
    (hr : ∀ c, o ≠ some c → (c ∈ s₁.refs ↔ c ∈ s.refs)) :
    Effect s (s₁.release t w least o rest) t f rest := by
  have hr' : ∀ cb, f.object ≠ some cb ∨ f = .destroyed cb → (cb ∈ s₁.refs ↔ cb ∈ s.refs) :=
    fun c hc => hr c (ho ▸ hc.resolve_right (hf c))
  simp only [State.release]
  split
  · apply turn [.deleteState o] { s₁ with deleter := some t } _ hst hp (fun _ => hq)
      (fun _ _ _ => congrFun hs _) hr' (.inl hw)
    rw [ho]
    cases o <;> rfl
  · apply turn (o.toList.map Frame.destroyed) s₁ _ hst hp (fun _ => hq)
      (fun _ _ _ => congrFun hs _) hr' (.inl hw)
    rw [ho]
    cases o <;> rfl

end Effect

namespace State

section Advance

variable [DecidableEq T] [DecidableEq C] {s s' : State T C K} {t : T} {cb : C}
  {rest : List (Frame C K)} {spurious : Bool}

theorem effect_of_signal {k : K} {old : Option ℕ}
    (h : s.advance t spurious rest (.signal k old) = some s') :
    Effect s s' t (.signal k old) rest := by
  cases old with
  | none =>
    obtain ⟨w, -, h⟩ := Option.bind_eq_some_iff.1 h
    obtain rfl := Option.some.inj h
    exact .quiet [.signal k (some w)] s rfl rfl (.inl rfl)
  | some old =>
    simp only [advance] at h
    split at h
    · obtain rfl := Option.some.inj h
      exact .quiet [] s rfl rfl (.inl rfl)
    · rename_i hreq
      refine .exchange h (fun _ => rfl) fun hw => ?_
      exact .quiet [.setThread k] _ rfl rfl (.inr (hw ▸ by simpa using hreq))

theorem effect_of_dequeue {k : K} (h : s.advance t spurious rest (.dequeue k) = some s') :
    Effect s s' t (.dequeue k) rest := by
  obtain ⟨w, -, h⟩ := Option.bind_eq_some_iff.1 h
  split at h
  · obtain rfl := Option.some.inj h
    exact .quiet [.unlockToReturn k] s rfl rfl (.inl rfl)
  · rename_i cb _
    obtain ⟨links, -, h⟩ := Option.bind_eq_some_iff.1 h
    obtain rfl := Option.some.inj h
    exact .turn [.unlockToRun k cb _] _ rfl rfl rfl (fun hl => by cases hl)
      (fun _ _ _ => rfl) (fun _ _ => Iff.rfl) (.inl rfl)

theorem effect_of_mark {k : K} {anyMore : Bool}
    (h : s.advance t spurious rest (.mark k cb anyMore) = some s') :
    Effect s s' t (.mark k cb anyMore) rest := by
  obtain ⟨x, -, h⟩ := Option.bind_eq_some_iff.1 h
  obtain rfl := Option.some.inj h
  refine .turn [.running k cb anyMore s.nextFlag] _ rfl rfl rfl (fun _ => rfl) ?_
    (fun _ _ => Iff.rfl) (.inl rfl)
  intro c _ hc
  have hne : c ≠ cb := by
    rintro rfl
    exact hc k anyMore rfl
  exact Function.update_of_ne hne ..

theorem effect_of_tryAdd {tk : Arg K} {old : Option ℕ}
    (h : s.advance t spurious rest (.tryAdd tk cb old) = some s') :
    Effect s s' t (.tryAdd tk cb old) rest := by
  cases old with
  | none =>
    obtain ⟨w, -, h⟩ := Option.bind_eq_some_iff.1 h
    obtain rfl := Option.some.inj h
    exact .quiet [.tryAdd tk cb (some w)] s rfl rfl (.inl rfl)
  | some old =>
    simp only [advance] at h
    split at h
    · obtain ⟨x, -, h⟩ := Option.bind_eq_some_iff.1 h
      obtain rfl := Option.some.inj h
      refine .turn [.executing tk cb] _ rfl rfl rfl (fun _ => rfl) ?_
        (fun _ _ => Iff.rfl) (.inl rfl)
      intro c hc _
      have hne : c ≠ cb := by
        rintro rfl
        exact hc rfl
      exact Function.update_of_ne hne ..
    · split at h
      · obtain rfl := Option.some.inj h
        exact .notAdded rfl (by simp)
      · refine .exchange h (fun _ => rfl) fun _ => ?_
        exact .quiet [.push tk cb] _ rfl rfl (.inl rfl)

theorem effect_of_unlockAdded {tk : Arg K}
    (h : s.advance t spurious rest (.unlockAdded tk cb) = some s') :
    Effect s s' t (.unlockAdded tk cb) rest := by
  obtain ⟨w, -, h⟩ := Option.bind_eq_some_iff.1 h
  cases tk with
  | copied k =>
    obtain rfl := Option.some.inj h
    refine .turn [.added (.copied k) cb] _ rfl rfl rfl (fun hl => by cases hl)
      (fun _ _ _ => rfl) ?_ (.inl rfl)
    intro c hc
    have hne : c ≠ cb := by
      rintro rfl
      exact hc.elim (fun hne => hne rfl) (fun hf => by cases hf)
    simp [hne]
  | moved k =>
    obtain rfl := Option.some.inj h
    exact .quiet [.added (.moved k) cb] _ rfl rfl (.inl rfl)

theorem effect_of_unlink (h : s.advance t spurious rest (.unlink cb) = some s') :
    Effect s s' t (.unlink cb) rest := by
  obtain ⟨w, -, h⟩ := Option.bind_eq_some_iff.1 h
  obtain ⟨x, -, h⟩ := Option.bind_eq_some_iff.1 h
  split at h
  · obtain ⟨links, -, h⟩ := Option.bind_eq_some_iff.1 h
    obtain rfl := Option.some.inj h
    exact .turn [.unlockRemoved cb] _ rfl rfl rfl (fun hl => by cases hl)
      (fun _ _ _ => rfl) (fun _ _ => Iff.rfl) (.inl rfl)
  · obtain rfl := Option.some.inj h
    exact .quiet [.unlockNotFound cb] s rfl rfl (.inl rfl)

theorem effect_of_checkThread (h : s.advance t spurious rest (.checkThread cb) = some s') :
    Effect s s' t (.checkThread cb) rest := by
  obtain ⟨w, -, h⟩ := Option.bind_eq_some_iff.1 h
  split at h
  · obtain ⟨x, -, h⟩ := Option.bind_eq_some_iff.1 h
    split at h
    · obtain rfl := Option.some.inj h
      exact .quiet [.removeReference cb] s rfl rfl (.inl rfl)
    · obtain ⟨n, -, h⟩ := Option.bind_eq_some_iff.1 h
      obtain rfl := Option.some.inj h
      exact .quiet [.removeReference cb] _ rfl rfl (.inl rfl)
  · obtain rfl := Option.some.inj h
    exact .quiet [.awaitFinished cb] s rfl rfl (.inl rfl)

theorem effect_of_awaitFinished (hs : s.stack t = .awaitFinished cb :: rest)
    (h : s.advance t spurious rest (.awaitFinished cb) = some s') :
    Effect s s' t (.awaitFinished cb) rest := by
  obtain ⟨x, -, h⟩ := Option.bind_eq_some_iff.1 h
  split at h
  · obtain rfl := Option.some.inj h
    exact .quiet [.removeReference cb] s rfl rfl (.inl rfl)
  · obtain rfl := Option.some.inj h
    exact ⟨fun _ _ => rfl, .inl ⟨[.awaitFinished cb], hs, rfl, rfl⟩, fun _ => rfl,
      fun _ _ _ => rfl, fun _ _ => Iff.rfl, .inl rfl⟩

/-- The effect of every step of a call. -/
theorem effect_of_advance {f : Frame C K} (hs : s.stack t = f :: rest)
    (h : s.advance t spurious rest f = some s') : Effect s s' t f rest := by
  cases f with
  | signal k old => exact effect_of_signal h
  | setThread k =>
    obtain ⟨w, -, h⟩ := Option.bind_eq_some_iff.1 h
    obtain rfl := Option.some.inj h
    exact .quiet [.dequeue k] _ rfl rfl (.inl rfl)
  | dequeue k => exact effect_of_dequeue h
  | unlockToRun k cb anyMore =>
    obtain ⟨w, -, h⟩ := Option.bind_eq_some_iff.1 h
    obtain rfl := Option.some.inj h
    exact .quiet [.mark k cb anyMore] _ rfl rfl (.inl rfl)
  | mark k cb anyMore => exact effect_of_mark h
  | running k cb anyMore n =>
    obtain ⟨removed, -, h⟩ := Option.bind_eq_some_iff.1 h
    split at h
    · obtain rfl := Option.some.inj h
      exact .afterRun _ rfl rfl rfl
    · obtain rfl := Option.some.inj h
      exact .quiet [.clearRemoved k cb anyMore n] s rfl rfl (.inl rfl)
  | clearRemoved k cb anyMore n =>
    obtain ⟨x, -, h⟩ := Option.bind_eq_some_iff.1 h
    obtain rfl := Option.some.inj h
    exact .quiet [.storeFinished k cb anyMore n] _ rfl rfl (.inl rfl)
  | storeFinished k cb anyMore n =>
    obtain ⟨x, -, h⟩ := Option.bind_eq_some_iff.1 h
    obtain rfl := Option.some.inj h
    exact .afterRun _ rfl rfl rfl
  | relock k old =>
    cases old with
    | none =>
      obtain ⟨w, -, h⟩ := Option.bind_eq_some_iff.1 h
      obtain rfl := Option.some.inj h
      exact .quiet [.relock k (some w)] s rfl rfl (.inl rfl)
    | some old =>
      refine .exchange h (fun _ => rfl) fun _ => ?_
      exact .quiet [.dequeue k] _ rfl rfl (.inl rfl)
  | unlockToReturn k =>
    obtain ⟨w, -, h⟩ := Option.bind_eq_some_iff.1 h
    obtain rfl := Option.some.inj h
    exact .quiet [] _ rfl rfl (.inl rfl)
  | tryAdd tk cb old => exact effect_of_tryAdd h
  | executing tk cb =>
    obtain rfl := Option.some.inj h
    exact .notAdded rfl (by simp)
  | push tk cb =>
    obtain ⟨w, -, h⟩ := Option.bind_eq_some_iff.1 h
    obtain ⟨links, -, h⟩ := Option.bind_eq_some_iff.1 h
    obtain rfl := Option.some.inj h
    exact .turn [.unlockAdded tk cb] _ rfl rfl rfl (fun hl => by cases hl)
      (fun _ _ _ => rfl) (fun _ _ => Iff.rfl) (.inl rfl)
  | unlockAdded tk cb => exact effect_of_unlockAdded h
  | added tk cb =>
    obtain ⟨x, -, h⟩ := Option.bind_eq_some_iff.1 h
    obtain rfl := Option.some.inj h
    exact .constructed _ rfl rfl rfl rfl rfl rfl (by simp) fun _ _ => Iff.rfl
  | lockToRemove cb old =>
    cases old with
    | none =>
      obtain ⟨w, -, h⟩ := Option.bind_eq_some_iff.1 h
      obtain rfl := Option.some.inj h
      exact .quiet [.lockToRemove cb (some w)] s rfl rfl (.inl rfl)
    | some old =>
      refine .exchange h (fun _ => rfl) fun _ => ?_
      exact .quiet [.unlink cb] _ rfl rfl (.inl rfl)
  | unlink cb => exact effect_of_unlink h
  | unlockRemoved cb =>
    obtain ⟨w, -, h⟩ := Option.bind_eq_some_iff.1 h
    obtain rfl := Option.some.inj h
    refine .release _ rfl rfl rfl rfl rfl rfl (by simp) fun c hc => ?_
    exact List.mem_erase_of_ne fun heq => hc (heq ▸ rfl)
  | unlockNotFound cb =>
    obtain ⟨w, -, h⟩ := Option.bind_eq_some_iff.1 h
    obtain rfl := Option.some.inj h
    exact .quiet [.checkThread cb] _ rfl rfl (.inl rfl)
  | checkThread cb => exact effect_of_checkThread h
  | awaitFinished cb => exact effect_of_awaitFinished hs h
  | removeReference cb =>
    obtain ⟨w, -, h⟩ := Option.bind_eq_some_iff.1 h
    obtain rfl := Option.some.inj h
    refine .release _ rfl rfl rfl rfl rfl rfl (by simp) fun c hc => ?_
    exact List.mem_erase_of_ne fun heq => hc (heq ▸ rfl)
  | deleteState o =>
    simp only [advance] at h
    split at h
    · cases h
    · obtain rfl := Option.some.inj h
      refine .quiet (o.toList.map Frame.destroyed) _ ?_ rfl (.inl rfl)
      cases o <;> rfl
  | destroyed cb =>
    obtain ⟨x, -, h⟩ := Option.bind_eq_some_iff.1 h
    obtain rfl := Option.some.inj h
    exact ⟨fun u hu => by simp [goto, hu],
      .inr ⟨by simp [goto], cb, rfl, .inr ⟨rfl, rfl⟩⟩, fun _ => rfl, fun _ _ _ => rfl,
      fun _ _ => Iff.rfl, .inl rfl⟩

end Advance

/-- A callback that is being constructed or destroyed is in the hands of a call, and none that is
gone has a reference. -/
structure Owned (s : State T C K) : Prop where
  busy : ∀ cb t, s.phase cb = .constructing t ∨ s.phase cb = .destroying t →
    ∃ f ∈ s.stack t, f.object = some cb
  dead : ∀ cb, s.phase cb = .dead → cb ∉ s.refs

variable {s s₁ s' : State T C K} {t : T} {cb : C}

/-- A token or a source comes or goes. -/
theorem Owned.of_eq (h : s.Owned) (hp : s₁.phase = s.phase) (hr : s₁.refs = s.refs)
    (hst : ∀ u, ∀ f ∈ s.stack u, f ∈ s₁.stack u) : s₁.Owned where
  busy c u hc := by
    obtain ⟨f, hf, ho⟩ := h.busy c u (hp ▸ hc)
    exact ⟨f, hst u f hf, ho⟩
  dead c hc := hr ▸ h.dead c (hp ▸ hc)

section Steps

variable [DecidableEq T]

theorem mem_goto_cons {f g : Frame C K} {u : T} (hf : f ∈ s.stack u)
    (hst : s₁.stack = s.stack) : f ∈ (s₁.goto t (g :: s.stack t)).stack u := by
  by_cases hu : u = t
  · subst hu
    simp [goto, hf]
  · simpa [goto, hu, hst] using hf

theorem release_keeps {w least : ℕ} {o : Option C} {rest : List (Frame C K)}
    (hq : s₁.queue = s.queue) (hs : s₁.starts = s.starts) (hw : s₁.winner = s.winner)
    (hp : s₁.phase = s.phase) :
    (s₁.release t w least o rest).queue = s.queue ∧
    (s₁.release t w least o rest).starts = s.starts ∧
    (s₁.release t w least o rest).winner = s.winner ∧
    ∀ cb, s.phase cb = .dead → (s₁.release t w least o rest).phase cb = .dead := by
  simp only [State.release]
  split
  · exact ⟨hq, hs, hw, fun c hc => (congrFun hp c).trans hc⟩
  · exact ⟨hq, hs, hw, fun c hc => (congrFun hp c).trans hc⟩

theorem mem_release {f : Frame C K} {u : T} {w least : ℕ} (hf : f ∈ s.stack u)
    (hst : s₁.stack = s.stack) : f ∈ (s₁.release t w least none (s.stack t)).stack u := by
  simp only [State.release]
  split
  · exact mem_goto_cons hf hst
  · by_cases hu : u = t
    · subst hu
      simpa [goto] using hf
    · simpa [goto, hu, hst] using hf

theorem Owned.release {w least : ℕ} (h : s.Owned) (hst : s₁.stack = s.stack)
    (hp : s₁.phase = s.phase) (hr : s₁.refs = s.refs) :
    (s₁.release t w least none (s.stack t)).Owned := by
  have hmem : ∀ u, ∀ f ∈ s.stack u, f ∈ (s₁.release t w least none (s.stack t)).stack u :=
    fun u f hf => mem_release hf hst
  revert hmem
  simp only [State.release]
  split
  · exact h.of_eq hp hr
  · exact h.of_eq hp hr

variable [DecidableEq C]

/-- A call about the callback begins. -/
theorem Owned.begin {f : Frame C K} {p : Phase T} (h : s.Owned) (ho : f.object = some cb)
    (hst : s₁.stack = s.stack) (hp : s₁.phase = Function.update s.phase cb p)
    (hpt : ∀ u, p = .constructing u ∨ p = .destroying u → u = t) (hpd : p ≠ .dead)
    (hr : ∀ c, c ≠ cb → (c ∈ s₁.refs ↔ c ∈ s.refs)) : (s₁.goto t (f :: s.stack t)).Owned where
  busy c u hc := by
    by_cases hccb : c = cb
    · subst hccb
      have hpu : s₁.phase c = p := by simp [hp]
      obtain rfl : u = t := hpt u (hpu ▸ hc)
      exact ⟨f, by simp [goto], ho⟩
    · have hpc : s₁.phase c = s.phase c := by simp [hp, hccb]
      obtain ⟨g, hg, hgo⟩ := h.busy c u (hpc ▸ hc)
      exact ⟨g, mem_goto_cons hg hst, hgo⟩
  dead c hc := by
    by_cases hccb : c = cb
    · subst hccb
      have hpu : s₁.phase c = p := by simp [hp]
      exact absurd (hpu.symm.trans hc) hpd
    · have hpc : s₁.phase c = s.phase c := by simp [hp, hccb]
      exact (hr c hccb).not.2 (h.dead c (hpc.symm.trans hc))

theorem Owned.advance {f : Frame C K} {rest : List (Frame C K)} (h : s.Owned) (hinv : s.Inv)
    (hs : s.stack t = f :: rest) (he : Effect s s' t f rest) : s'.Owned := by
  have hf : f.Holds s t := hinv.top hs
  have hrest : ∀ u, ∀ g ∈ s.stack u, g ≠ f ∨ u ≠ t → g ∈ s'.stack u := by
    intro u g hg hne
    by_cases hu : u = t
    · subst hu
      have hg' : g ∈ rest := by simpa [hs, hne.resolve_right (by simp)] using hg
      rcases he.own with ⟨fs, hst, -⟩ | ⟨hst, -⟩
      · rw [hst]
        exact List.mem_append_right _ hg'
      · rwa [hst]
    · rwa [he.elsewhere u hu]
  have hother : ∀ c, f.object ≠ some c → s'.phase c = s.phase c := by
    intro c hc
    rcases he.own with ⟨-, -, -, hp⟩ | ⟨-, cb, ho, hp⟩
    · rw [hp]
    · have hne : c ≠ cb := fun heq => hc (heq ▸ ho)
      rcases hp with hp | ⟨-, hp⟩ <;> simp [hp, hne]
  constructor
  · intro c u hc
    by_cases ho : f.object = some c
    · rcases he.own with ⟨fs, hst, hobj, hp⟩ | ⟨-, cb, hcb, hp⟩
      · have hmem : c ∈ fs.filterMap Frame.object := by simp [hobj, ho]
        obtain ⟨g, hg, hgo⟩ := List.mem_filterMap.1 hmem
        have hph := hf.phase ho
        rw [hp] at hc
        obtain rfl : u = t := by grind
        exact ⟨g, hst ▸ List.mem_append_left _ hg, hgo⟩
      · obtain rfl : c = cb := Option.some.inj (ho.symm.trans hcb)
        rcases hp with hp | ⟨-, hp⟩ <;> simp [hp] at hc
    · rw [hother c ho] at hc
      obtain ⟨g, hg, hgo⟩ := h.busy c u hc
      have hne : g ≠ f := by
        rintro rfl
        exact ho hgo
      exact ⟨g, hrest u g hg (.inl hne), hgo⟩
  · intro c hc
    by_cases ho : f.object = some c
    · rcases he.own with ⟨-, -, -, hp⟩ | ⟨-, cb, hcb, hp⟩
      · have hph := hf.phase ho
        rw [hp] at hc
        rcases hph with hph | hph <;> cases hc.symm.trans hph
      · obtain rfl : c = cb := Option.some.inj (ho.symm.trans hcb)
        rcases hp with hp | ⟨hd, -⟩
        · simp [hp] at hc
        · rw [he.refs c (.inr hd)]
          subst hd
          exact hf.2.1
    · rw [he.refs c (.inl ho)]
      exact h.dead c ((hother c ho).symm.trans hc)

variable [Fintype T] [DecidableEq K] {e : Event T C K}

theorem Owned.step (h : s.Owned) (hinv : s.Inv) (he : s.stepWithRoom e = some s') :
    s'.Owned := by
  have he : s.attempt e = some (some s') :=
    Option.join_eq_some_iff.1 (Option.ite_none_right_eq_some.1 he).2
  cases e with
  | requestStop t k =>
    obtain ⟨-, hr⟩ := Option.ite_none_right_eq_some.1 he
    obtain rfl := Option.some.inj (Option.some.inj hr)
    exact h.of_eq rfl rfl fun u f hf => mem_goto_cons hf rfl
  | construct t tk cb =>
    obtain ⟨-, hr⟩ := Option.ite_none_right_eq_some.1 he
    obtain rfl := Option.some.inj (Option.some.inj hr)
    cases tk with
    | copied k =>
      exact h.begin rfl rfl rfl (by simp) (by simp) fun _ _ => Iff.rfl
    | moved k =>
      exact h.begin rfl rfl rfl (by simp) (by simp) fun c hc => by simp [hc]
  | destroy t cb =>
    obtain ⟨-, hr⟩ := Option.ite_none_right_eq_some.1 he
    obtain ⟨x, -, rfl⟩ := Option.map_eq_some_iff.1 (Option.some.inj hr)
    refine h.begin ?_ rfl rfl (by simp) (by simp) fun _ _ => Iff.rfl
    split <;> rfl
  | copyToken t k new =>
    obtain ⟨-, hr⟩ := Option.ite_none_right_eq_some.1 he
    obtain ⟨x, -, rfl⟩ := Option.map_eq_some_iff.1 (Option.some.inj hr)
    exact h.of_eq rfl rfl fun _ _ => id
  | getToken t k new =>
    obtain ⟨-, hr⟩ := Option.ite_none_right_eq_some.1 he
    obtain ⟨x, -, rfl⟩ := Option.map_eq_some_iff.1 (Option.some.inj hr)
    exact h.of_eq rfl rfl fun _ _ => id
  | copySource t k new =>
    obtain ⟨-, hr⟩ := Option.ite_none_right_eq_some.1 he
    obtain ⟨x, -, rfl⟩ := Option.map_eq_some_iff.1 (Option.some.inj hr)
    exact h.of_eq rfl rfl fun _ _ => id
  | dropToken t k =>
    obtain ⟨-, hr⟩ := Option.ite_none_right_eq_some.1 he
    obtain ⟨x, -, rfl⟩ := Option.map_eq_some_iff.1 (Option.some.inj hr)
    exact h.release rfl rfl rfl
  | dropSource t k =>
    obtain ⟨-, hr⟩ := Option.ite_none_right_eq_some.1 he
    obtain ⟨x, -, rfl⟩ := Option.map_eq_some_iff.1 (Option.some.inj hr)
    exact h.release rfl rfl rfl
  | go t spurious =>
    simp only [State.attempt] at he
    split at he
    · cases he
    · rename_i f rest hs
      exact h.advance hinv hs (effect_of_advance hs (Option.some.inj he))

/-- What an event may change: a call takes a step, or nothing of this changes. -/
theorem effect_of_step (he : s.stepWithRoom e = some s') :
    (∃ t spurious f rest, e = .go t spurious ∧ s.stack t = f :: rest ∧ Effect s s' t f rest) ∨
    s'.queue = s.queue ∧ s'.starts = s.starts ∧ s'.winner = s.winner ∧
      ∀ cb, s.phase cb = .dead → s'.phase cb = .dead := by
  have he : s.attempt e = some (some s') :=
    Option.join_eq_some_iff.1 (Option.ite_none_right_eq_some.1 he).2
  cases e with
  | requestStop t k =>
    obtain ⟨-, hr⟩ := Option.ite_none_right_eq_some.1 he
    obtain rfl := Option.some.inj (Option.some.inj hr)
    exact .inr ⟨rfl, rfl, rfl, fun _ => id⟩
  | construct t tk cb =>
    obtain ⟨⟨-, hp, -⟩, hr⟩ := Option.ite_none_right_eq_some.1 he
    obtain rfl := Option.some.inj (Option.some.inj hr)
    have hphase : ∀ c, s.phase c = .dead →
        Function.update s.phase cb (.constructing t) c = .dead := by
      intro c hc
      have hne : c ≠ cb := by
        rintro rfl
        simp [hp] at hc
      rwa [Function.update_of_ne hne]
    cases tk with
    | copied k => exact .inr ⟨rfl, rfl, rfl, hphase⟩
    | moved k => exact .inr ⟨rfl, rfl, rfl, hphase⟩
  | destroy t cb =>
    obtain ⟨⟨-, hp⟩, hr⟩ := Option.ite_none_right_eq_some.1 he
    obtain ⟨x, -, rfl⟩ := Option.map_eq_some_iff.1 (Option.some.inj hr)
    refine .inr ⟨rfl, rfl, rfl, fun c hc => ?_⟩
    have hne : c ≠ cb := by
      rintro rfl
      simp [hp] at hc
    exact (Function.update_of_ne hne ..).trans hc
  | copyToken t k new =>
    obtain ⟨-, hr⟩ := Option.ite_none_right_eq_some.1 he
    obtain ⟨x, -, rfl⟩ := Option.map_eq_some_iff.1 (Option.some.inj hr)
    exact .inr ⟨rfl, rfl, rfl, fun _ => id⟩
  | getToken t k new =>
    obtain ⟨-, hr⟩ := Option.ite_none_right_eq_some.1 he
    obtain ⟨x, -, rfl⟩ := Option.map_eq_some_iff.1 (Option.some.inj hr)
    exact .inr ⟨rfl, rfl, rfl, fun _ => id⟩
  | copySource t k new =>
    obtain ⟨-, hr⟩ := Option.ite_none_right_eq_some.1 he
    obtain ⟨x, -, rfl⟩ := Option.map_eq_some_iff.1 (Option.some.inj hr)
    exact .inr ⟨rfl, rfl, rfl, fun _ => id⟩
  | dropToken t k =>
    obtain ⟨-, hr⟩ := Option.ite_none_right_eq_some.1 he
    obtain ⟨x, -, rfl⟩ := Option.map_eq_some_iff.1 (Option.some.inj hr)
    exact .inr (release_keeps rfl rfl rfl rfl)
  | dropSource t k =>
    obtain ⟨-, hr⟩ := Option.ite_none_right_eq_some.1 he
    obtain ⟨x, -, rfl⟩ := Option.map_eq_some_iff.1 (Option.some.inj hr)
    exact .inr (release_keeps rfl rfl rfl rfl)
  | go t spurious =>
    simp only [State.attempt] at he
    split at he
    · cases he
    · rename_i f rest hs
      exact .inl ⟨t, spurious, f, rest, rfl, hs, effect_of_advance hs (Option.some.inj he)⟩

theorem Reachable.owned {k : K} (h : Reachable k s) : s.Owned := by
  obtain ⟨es, hrun⟩ := h
  have hinit : (State.init k : State T C K).Owned := ⟨by simp [State.init], by simp [State.init]⟩
  exact (Steps.invariant_of_step (I := fun s => s.Inv ∧ s.Owned)
    (fun _ _ _ hs he => ⟨hs.1.step he, hs.2.step hs.1 he⟩) ⟨.init, hinit⟩ hrun).2

end Steps

end State

end Jkl.StopState
