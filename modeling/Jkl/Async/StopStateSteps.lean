import Jkl.Async.StopStateInv

/-! Every step of a call keeps the invariant, and uses only what is there. -/
namespace Jkl.StopState

variable {T C K : Type} {s s₁ : State T C K} {t u : T} {f g : Frame C K} {rest : List (Frame C K)}
  {cb : C}

namespace Frame

theorem Holds.holder (h : f.Holds s t) (hl : f.locked = true) : s.holder = some t := by
  cases f <;> simp_all [Frame.Holds, Frame.locked]

theorem Holds.winner (h : f.Holds s t) (hw : f.winning = true) : s.winner = some t := by
  cases f with
  | unlockToRun => exact h.2.2.winner
  | mark => exact h.2.winner
  | running =>
    rcases h.2 with h | h
    · exact h.1.winner
    · exact h.winner
  | clearRemoved => exact h.2.1.winner
  | storeFinished => exact h.2.winner
  | _ => simp_all [Frame.Holds, Frame.winning]

theorem Holds.deleter_ne_none (h : f.Holds s t) (hd : f.deletes = true) : s.deleter ≠ none := by
  cases f <;> simp_all [Frame.Holds, Frame.deletes]

theorem Holds.phase (h : f.Holds s t) (ho : f.object = some cb) :
    s.phase cb = .constructing t ∨ s.phase cb = .destroying t := by
  cases f with
  | deleteState => exact .inr (h.2.2 cb ho).1
  | _ => simp_all [Frame.Holds, Frame.object]

end Frame

/-- What the thread `t`, whose innermost call is `top`, has to keep for the call `f` of `u`. -/
structure Bystander (s : State T C K) (t : T) (top : Frame C K) (u : T) (f : Frame C K) :
    Prop where
  holds : f.Holds s u
  runs : u = t → f.runs = true
  object : u = t → ∀ cb, top.object = some cb → f.object ≠ some cb
  winning : u = t → top.winning = true → f.winning = false

namespace Bystander

variable {top : Frame C K}

theorem locked_eq_false (h : Bystander s t top u f) (hh : s.holder = none ∨ s.holder = some t) :
    f.locked = false := by
  by_contra hl
  have hl : f.locked = true := by simpa using hl
  have hu : s.holder = some u := h.holds.holder hl
  have hut : u = t := by grind
  have hr := h.runs hut
  cases f <;> simp_all [Frame.runs, Frame.locked]

theorem winning_eq_false (h : Bystander s t top u f) (ht : top.Holds s t)
    (hw : top.winning = true) : f.winning = false := by
  by_cases hu : u = t
  · exact h.winning hu hw
  · by_contra hl
    have hwin : s.winner = some u := h.holds.winner (by simpa using hl)
    exact hu (Option.some.inj (hwin.symm.trans (ht.winner hw)))

theorem object_ne (h : Bystander s t top u f) (ht : top.Holds s t) (hc : top.object = some cb)
    {c : C} (hf : f.object = some c) : c ≠ cb := by
  rintro rfl
  have hu := h.holds.phase hf
  have hp := ht.phase hc
  have hut : u = t := by grind
  exact h.object hut c hc hf

end Bystander

namespace State

theorem Inv.bystander (h : s.Inv) (hs : s.stack t = f :: rest)
    (hg : u ≠ t ∧ g ∈ s.stack u ∨ u = t ∧ g ∈ rest) : Bystander s t f u g := by
  have hok := h.stack t
  rw [hs] at hok
  rcases hg with ⟨hu, hg⟩ | ⟨rfl, hg⟩
  · exact ⟨(h.stack u).holds g hg, fun hut => absurd hut hu, fun hut => absurd hut hu,
      fun hut => absurd hut hu⟩
  · refine ⟨hok.holds g (by simp [hg]), fun _ => hok.below g hg, ?_, ?_⟩
    · intro _ cb hcb hgcb
      have hobj := hok.objects
      simp only [List.filterMap_cons, hcb, List.nodup_cons, List.mem_filterMap] at hobj
      exact hobj.1 ⟨g, hg, hgcb⟩
    · intro _ hf
      have hw : s.winner = some u := (hok.holds f List.mem_cons_self).winner hf
      have hcount := hok.winning hw
      rw [List.countP_cons_of_pos hf] at hcount
      have hzero : rest.countP Frame.winning = 0 := by omega
      simpa using List.countP_eq_zero.1 hzero g hg

theorem StackOk.locked_top (h : s.StackOk t (f :: rest)) (hh : s.holder = some t) :
    f.locked = true := by
  simpa using h.locks hh

theorem StackOk.deletes_top (h : s.StackOk t (f :: rest)) (hd : s.deleter = some t)
    (hn : s.deleted = false) : f.deletes = true := by
  simpa using h.deletes hd hn

/-- The `__request_stop` that set the flag has not returned. -/
theorem Inv.wins_eq_zero (h : s.Inv) (hs : s.stack t = f :: rest) (hf : f.winning = true) :
    s.wins = 0 := by
  have hok := h.stack t
  rw [hs] at hok
  have hcount := hok.winning ((hok.holds f List.mem_cons_self).winner hf)
  rw [List.countP_cons_of_pos hf] at hcount
  omega

/-- The thread's innermost call goes on as `g`. -/
theorem StackOk.replace (h : s.StackOk t (f :: rest)) (hk : ∀ g ∈ rest, Keeps s s₁ g)
    (hg : g.Holds s₁ t) (hobj : g.object = f.object) (hw : s₁.winner = s.winner)
    (hwins : s₁.wins = s.wins) (hwin : g.winning = f.winning)
    (hserves : ∀ cb, s.winner = some t → s₁.current = some cb →
      g.serves = some cb ∨ s.current = some cb ∧ f.serves ≠ some cb)
    (hlocks : s₁.holder = some t → g.locked = true)
    (hdel : s₁.deleter = some t → s₁.deleted = false → g.deletes = true) :
    s₁.StackOk t (g :: rest) where
  holds f' hf' := by
    rcases List.mem_cons.1 hf' with rfl | hf'
    · exact hg
    · exact (hk f' hf').holds (h.holds f' (List.mem_cons_of_mem f hf'))
  below := h.below
  objects := by simpa [List.filterMap_cons, hobj] using h.objects
  winning hw' := by simpa [List.countP_cons, hwins, hwin] using h.winning (hw ▸ hw')
  notWinning hw' := by simpa [List.countP_cons, hwin] using h.notWinning (hw ▸ hw')
  serves hw' cb hcb := by
    rcases hserves cb (hw ▸ hw') hcb with hs | ⟨hc, hf⟩
    · exact ⟨g, List.mem_cons_self, hs⟩
    · obtain ⟨f', hf', hs⟩ := h.serves (hw ▸ hw') cb hc
      rcases List.mem_cons.1 hf' with rfl | hf'
      · exact absurd hs hf
      · exact ⟨f', List.mem_cons_of_mem g hf', hs⟩
  locks hh := ⟨g, by simp, hlocks hh⟩
  deletes hd hn := ⟨g, by simp, hdel hd hn⟩

/-- The thread's innermost call returns. -/
theorem StackOk.pop (h : s.StackOk t (f :: rest)) (hk : ∀ g ∈ rest, Keeps s s₁ g)
    (hw : s₁.winner = s.winner) (hwins : s₁.wins = s.wins + f.winning.toNat)
    (hserves : ∀ cb, s.winner = some t → s₁.current = some cb →
      s.current = some cb ∧ f.serves ≠ some cb)
    (hlocks : s₁.holder ≠ some t) (hdel : s₁.deleter = some t → s₁.deleted = true) :
    s₁.StackOk t rest where
  holds f' hf' := (hk f' hf').holds (h.holds f' (List.mem_cons_of_mem f hf'))
  below f' hf' := h.below f' (List.mem_of_mem_tail hf')
  objects := h.objects.sublist (by simpa [List.filterMap_cons] using by split <;> simp)
  winning hw' := by
    have hcount := h.winning (hw ▸ hw')
    rw [List.countP_cons] at hcount
    cases hf : f.winning <;> simp only [hf] at hcount hwins <;> simp at * <;> omega
  notWinning hw' := by
    have hcount := h.notWinning (hw ▸ hw')
    rw [List.countP_cons] at hcount
    omega
  serves hw' cb hcb := by
    obtain ⟨hc, hf⟩ := hserves cb (hw ▸ hw') hcb
    obtain ⟨f', hf', hs⟩ := h.serves (hw ▸ hw') cb hc
    rcases List.mem_cons.1 hf' with rfl | hf'
    · exact absurd hs hf
    · exact ⟨f', hf', hs⟩
  locks hh := absurd hh hlocks
  deletes hd hn := by simp [hdel hd] at hn

/-- The thread's innermost call goes on as `g`, of the same kind. -/
theorem StackOk.next (h : s.StackOk t (f :: rest)) (hk : ∀ g ∈ rest, Keeps s s₁ g)
    (hg : g.Holds s₁ t) (hkind : g.object = f.object ∧ g.winning = f.winning ∧
      g.serves = f.serves ∧ g.locked = f.locked ∧ g.deletes = f.deletes)
    (hw : s₁.winner = s.winner) (hwins : s₁.wins = s.wins) (hc : s₁.current = s.current)
    (hh : s₁.holder = s.holder) (hd : s₁.deleter = s.deleter) (hn : s₁.deleted = s.deleted) :
    s₁.StackOk t (g :: rest) := by
  obtain ⟨hobj, hwin, hserves, hlock, hdel⟩ := hkind
  apply h.replace hk hg hobj hw hwins hwin
  · intro cb _ hcb
    by_cases hf : f.serves = some cb
    · exact .inl (hserves.trans hf)
    · exact .inr ⟨hc ▸ hcb, hf⟩
  · exact fun hh' => hlock.trans (h.locked_top (hh ▸ hh'))
  · exact fun hd' hn' => hdel.trans (h.deletes_top (hd ▸ hd') (hn ▸ hn'))

/-- A call of a constructor or of a destructor returns. -/
theorem StackOk.return (h : s.StackOk t (f :: rest)) (hk : ∀ g ∈ rest, Keeps s s₁ g)
    (hwin : f.winning = false) (hserves : f.serves = none) (hlock : f.locked = false)
    (hdel : f.deletes = false) (hw : s₁.winner = s.winner) (hwins : s₁.wins = s.wins)
    (hc : s₁.current = s.current) (hh : s₁.holder = s.holder) (hd : s₁.deleter = s.deleter)
    (hn : s₁.deleted = s.deleted) : s₁.StackOk t rest := by
  apply h.pop hk hw (by simp [hwins, hwin])
  · exact fun cb _ hcb => ⟨hc ▸ hcb, by simp [hserves]⟩
  · exact fun hh' => by simp [h.locked_top (hh ▸ hh')] at hlock
  · intro hd'
    by_contra hn'
    have hn' : s.deleted = false := by simpa [hn] using hn'
    simp [h.deletes_top (hd ▸ hd') hn'] at hdel

/-- The stack of a `__request_stop` that has no callback any more. -/
theorem StackOk.afterRun {k : K} {anyMore : Bool} (h : s.StackOk t (f :: rest))
    (hk : ∀ g ∈ rest, Keeps s s₁ g) (hf : f.winning = true) (hfl : f.locked = false)
    (hfd : f.deletes = false) (hfo : f.object = none) (hsrc : k ∈ s₁.sources)
    (hw : s₁.winner = s.winner) (hwin : s.winner = some t) (ht : s₁.signallingThread = some t) (hc : s₁.current = none)
    (hholder : s₁.holder = s.holder) (hdeleter : s₁.deleter = s.deleter)
    (hdeleted : s₁.deleted = s.deleted) :
    (anyMore = true → s₁.wins = s.wins → s₁.StackOk t (.relock k none :: rest)) ∧
    (anyMore = false → s₁.wins = s.wins + 1 → s₁.StackOk t rest) := by
  constructor
  · intro _ hwins
    refine h.replace hk ⟨hsrc, hw.trans hwin, ht, hc⟩ hfo.symm hw hwins hf.symm ?_ ?_ ?_
    · simp [hc]
    · exact fun hh => by simp [h.locked_top (hholder ▸ hh)] at hfl
    · exact fun hd hn => by simp [h.deletes_top (hdeleter ▸ hd) (hdeleted ▸ hn)] at hfd
  · intro _ hwins
    apply h.pop hk hw (by simp [hwins, hf])
    · simp [hc]
    · exact fun hh => by simp [h.locked_top (hholder ▸ hh)] at hfl
    · intro hd
      by_contra hn
      have hn : s.deleted = false := by simpa [hdeleted] using hn
      simp [h.deletes_top (hdeleter ▸ hd) hn] at hfd

/-- A thread that is in no call, or in a callback, makes a call. -/
theorem StackOk.push {fs : List (Frame C K)} (h : s.StackOk t fs)
    (hidle : fs.head?.all Frame.runs = true) (hk : ∀ g ∈ fs, Keeps s s₁ g) (hg : g.Holds s₁ t)
    (hobj : ∀ cb, g.object = some cb → ∀ f ∈ fs, f.object ≠ some cb)
    (hw : s₁.winner = s.winner) (hwins : s₁.wins = s.wins) (hwin : g.winning = false)
    (hc : s₁.current = s.current) (hlocks : s₁.holder = s.holder)
    (hdel : s₁.deleter = some t → s₁.deleted = false → g.deletes = true) :
    s₁.StackOk t (g :: fs) where
  holds f' hf' := by
    rcases List.mem_cons.1 hf' with rfl | hf'
    · exact hg
    · exact (hk f' hf').holds (h.holds f' hf')
  below f' hf' := by
    cases fs with
    | nil => simp at hf'
    | cons f fs =>
      rcases List.mem_cons.1 hf' with rfl | hf'
      · simpa using hidle
      · exact h.below f' hf'
  objects := by
    rw [List.filterMap_cons]
    split
    · exact h.objects
    · rename_i cb hcb
      refine List.nodup_cons.2 ⟨?_, h.objects⟩
      rw [List.mem_filterMap]
      rintro ⟨f, hf, hfcb⟩
      exact hobj cb hcb f hf hfcb
  winning hw' := by simpa [List.countP_cons, hwins, hwin] using h.winning (hw ▸ hw')
  notWinning hw' := by simpa [List.countP_cons, hwin] using h.notWinning (hw ▸ hw')
  serves hw' cb hcb := by
    obtain ⟨f', hf', hs⟩ := h.serves (hw ▸ hw') cb (hc ▸ hcb)
    exact ⟨f', List.mem_cons_of_mem g hf', hs⟩
  locks hh := by
    obtain ⟨f, hf, hl⟩ := h.locks (hlocks ▸ hh)
    rw [hf] at hidle
    cases f <;> simp_all [Frame.locked, Frame.runs]
  deletes hd hn := ⟨g, by simp, hdel hd hn⟩

/-- What the step of thread `t` leaves of what the stacks of the others depend on. -/
structure Elsewhere (s s₁ : State T C K) (t : T) : Prop where
  winner : ∀ u, u ≠ t → (s₁.winner = some u ↔ s.winner = some u)
  wins : ∀ u, u ≠ t → s.winner = some u → s₁.wins = s.wins
  current : ∀ u, u ≠ t → s.winner = some u → s₁.current = s.current
  holder : ∀ u, u ≠ t → s₁.holder = some u → s.holder = some u
  deleter : ∀ u, u ≠ t → s₁.deleter = some u → s₁.deleted = false →
    s.deleter = some u ∧ s.deleted = false

theorem Elsewhere.of_eq (hw : s₁.winner = s.winner) (hwins : s₁.wins = s.wins)
    (hc : s₁.current = s.current) (hh : s₁.holder = s.holder) (hd : s₁.deleter = s.deleter)
    (hdel : s₁.deleted = s.deleted) : Elsewhere s s₁ t :=
  ⟨fun _ _ => by rw [hw], fun _ _ _ => hwins, fun _ _ _ => hc, fun _ _ h => hh ▸ h,
    fun _ _ h hn => ⟨hd ▸ h, hdel ▸ hn⟩⟩

section Goto

variable [DecidableEq T]

theorem keeps_goto (fs : List (Frame C K)) : Keeps s (s.goto t fs) f :=
  .of_eq rfl rfl rfl rfl rfl rfl rfl rfl (fun _ _ => id) (fun _ _ => id) (fun _ => ⟨rfl, rfl⟩)
    (fun _ => id) fun _ => ⟨rfl, rfl⟩

theorem Shared.goto (h : s.Shared) (fs : List (Frame C K)) : (s.goto t fs).Shared :=
  h.of_eq rfl rfl rfl rfl rfl rfl rfl rfl h.word h.tokens h.sources h.thread id h.deleter
    h.deleted h.wins h.done

theorem StackOk.goto {fs fs' : List (Frame C K)} (h : s.StackOk u fs) :
    (s.goto t fs').StackOk u fs :=
  h.keeps (fun _ _ => keeps_goto fs') Iff.rfl (fun _ => rfl) (fun _ => rfl) id
    fun hd hn => ⟨hd, hn⟩

/-- A step of thread `t` may change the state to `s₁`, and goes on with the calls `fs`. -/
theorem Inv.of_step (h : s.Inv) {fs : List (Frame C K)} (hs : s.stack t = f :: rest)
    (hshared : s₁.Shared) (hst : s₁.stack = s.stack) (hel : Elsewhere s s₁ t)
    (hk : ∀ u g, Bystander s t f u g → Keeps s s₁ g)
    (hown : s.StackOk t (f :: rest) → (∀ g ∈ rest, Keeps s s₁ g) → s₁.StackOk t fs) :
    (s₁.goto t fs).Inv where
  shared := hshared.goto fs
  stack u := by
    by_cases hu : u = t
    · subst hu
      have hown' : s₁.StackOk u fs :=
        hown (hs ▸ h.stack u) fun g hg => hk u g (h.bystander hs (.inr ⟨rfl, hg⟩))
      simpa [State.goto] using hown'.goto
    · have hsu : (s₁.goto t fs).stack u = s.stack u := by simp [State.goto, hu, hst]
      have hok : s₁.StackOk u (s.stack u) :=
        (h.stack u).keeps (fun g hg => hk u g (h.bystander hs (.inl ⟨hu, hg⟩))) (hel.winner u hu)
          (hel.wins u hu) (hel.current u hu) (hel.holder u hu) (hel.deleter u hu)
      exact hsu ▸ hok.goto

/-- The call only goes to another place. -/
theorem Inv.turn (h : s.Inv) (hs : s.stack t = f :: rest) (hg : g.Holds s t)
    (hobj : g.object = f.object) (hwin : g.winning = f.winning) (hserves : g.serves = f.serves)
    (hlock : g.locked = f.locked) (hdel : g.deletes = f.deletes) :
    (s.goto t (g :: rest)).Inv := by
  apply h.of_step hs h.shared rfl (.of_eq rfl rfl rfl rfl rfl rfl) fun _ _ _ => .refl
  intro hok hk
  exact hok.next hk hg ⟨hobj, hwin, hserves, hlock, hdel⟩ rfl rfl rfl rfl rfl rfl

/-- The call returns, and leaves the state as it is. -/
theorem Inv.return (h : s.Inv) (hs : s.stack t = f :: rest) (hwin : f.winning = false)
    (hserves : f.serves = none) (hlock : f.locked = false) (hdel : f.deletes = false) :
    (s.goto t rest).Inv := by
  apply h.of_step hs h.shared rfl (.of_eq rfl rfl rfl rfl rfl rfl) fun _ _ _ => .refl
  intro hok hk
  exact hok.return hk hwin hserves hlock hdel rfl rfl rfl rfl rfl rfl

end Goto

/-- There is still a reference to the state. -/
theorem Shared.not_deleted (h : s.Shared)
    (href : ¬ (s.tokens = [] ∧ s.sources = [] ∧ s.refs = [])) : s.deleted = false := by
  by_contra hd
  exact h.deleted (by simpa using hd) (h.deleter.2 href)

theorem Shared.not_deleted_of_source (h : s.Shared) {k : K} (hk : k ∈ s.sources) :
    s.deleted = false :=
  h.not_deleted fun hnil => by simp [hnil.2.1] at hk

theorem Shared.not_deleted_of_ref (h : s.Shared) (hcb : cb ∈ s.refs) : s.deleted = false :=
  h.not_deleted fun hnil => by simp [hnil.2.2] at hcb

theorem Shared.not_deleted_of_token (h : s.Shared) {tk : Arg K} (htk : s.HasToken tk cb) :
    s.deleted = false := by
  cases tk with
  | copied k => exact h.not_deleted fun hnil => by simp [hnil.1, HasToken] at htk
  | moved k => exact h.not_deleted_of_ref htk

theorem load_eq (h : s.deleted = false) : s.load = some s.word := by simp [load, h]

theorem Inv.top (h : s.Inv) (hs : s.stack t = f :: rest) : f.Holds s t :=
  (h.stack t).holds f (by simp [hs])

theorem Shared.holder_eq_none (h : s.Shared) (hw : isLocked s.word = false) :
    s.holder = none := by
  rw [h.word, isLocked_pack] at hw
  simpa using hw

theorem Shared.winner_eq_none (h : s.Shared) (hw : isStopRequested s.word = false) :
    s.winner = none := by
  rw [h.word, isStopRequested_pack] at hw
  simpa using hw

section Lock

variable [DecidableEq T]

theorem exchange_inv {spurious : Bool} {old : ℕ} {retry : ℕ → Frame C K}
    (hd : s.deleted = false) (hretry : (s.goto t (retry s.word :: rest)).Inv)
    (hlocked : isLocked s.word = false → old = s.word → s₁.Inv) :
    ∃ s', s.exchange t spurious old retry s₁ rest = some s' ∧ s'.Inv := by
  simp only [exchange, load_eq hd, Option.bind_eq_bind, Option.bind_some]
  split
  · exact ⟨_, rfl, hretry⟩
  · rename_i hcond
    simp only [Bool.or_eq_true, not_or, Bool.not_eq_true, bne_iff_ne, ne_eq, Decidable.not_not]
      at hcond
    obtain ⟨⟨hl, -⟩, hw⟩ := hcond
    exact ⟨_, rfl, hlocked (hw ▸ hl) hw.symm⟩

/-- The call takes the lock. -/
theorem Inv.lock (h : s.Inv) (hs : s.stack t = f :: rest) (hw : isLocked s.word = false)
    (hg : g.Holds { s with word := s.word ||| lockedFlag, holder := some t } t)
    (hobj : g.object = f.object) (hwin : g.winning = f.winning) (hserves : f.serves = none)
    (hlock : g.locked = true) (hdel : f.deletes = false) :
    ({ s with word := s.word ||| lockedFlag, holder := some t }.goto t (g :: rest)).Inv := by
  have hnone : s.holder = none := h.shared.holder_eq_none hw
  have hword := h.shared.word
  apply h.of_step hs
  · refine h.shared.of_eq rfl rfl rfl rfl rfl rfl rfl rfl ?_ h.shared.tokens h.shared.sources
      h.shared.thread id h.shared.deleter h.shared.deleted h.shared.wins h.shared.done
    simp only [hnone, Option.isSome_none] at hword
    simp only [hword, pack_or_locked, Option.isSome_some]
  · rfl
  · exact ⟨fun _ _ => Iff.rfl, fun _ _ _ => rfl, fun _ _ _ => rfl,
      fun u hu hh => absurd (Option.some.inj hh) (Ne.symm hu), fun _ _ hd hn => ⟨hd, hn⟩⟩
  · intro u f' hf'
    have hl : f'.locked = false := hf'.locked_eq_false (.inl hnone)
    exact .of_eq rfl rfl rfl rfl rfl rfl rfl rfl (fun _ _ => id) (fun _ _ => id)
      (fun hl' => by simp [hl] at hl') (fun _ => id) fun _ => ⟨rfl, rfl⟩
  · intro hok hk
    apply hok.replace hk hg hobj rfl rfl hwin
    · exact fun cb _ hcb => .inr ⟨hcb, by simp [hserves]⟩
    · exact fun _ => hlock
    · exact fun hd hn => by simp [hok.deletes_top hd hn] at hdel

omit [DecidableEq T] in
theorem keeps_unlock (w : ℕ) (hf : f.locked = false) :
    Keeps s { s with word := w, holder := none } f :=
  .of_eq rfl rfl rfl rfl rfl rfl rfl rfl (fun _ _ => id) (fun _ _ => id)
    (fun hf' => by simp [hf] at hf') (fun _ => id) fun _ => ⟨rfl, rfl⟩

omit [DecidableEq T] in
theorem Shared.word_unlock {w : ℕ} (h : s.Shared) (hh : s.holder = some t)
    (hw : sub64 s.word lockedFlag = w) :
    w = pack s.winner.isSome false (s.tokens.length + s.refs.length) s.sources.length := by
  have hword := h.word
  rw [hh, Option.isSome_some] at hword
  rw [← hw, hword, pack_unlock h.tokens h.sources]

/-- The call gives the lock back. -/
theorem Inv.unlock {w : ℕ} (h : s.Inv) (hs : s.stack t = f :: rest) (hf : f.locked = true)
    (hw : sub64 s.word lockedFlag = w) (hg : g.Holds s t) (hobj : g.object = f.object)
    (hwin : g.winning = f.winning) (hserves : g.serves = f.serves) (hlock : g.locked = false)
    (hdel : f.deletes = false) :
    ({ s with word := w, holder := none }.goto t (g :: rest)).Inv := by
  have hh : s.holder = some t := (h.top hs).holder hf
  apply h.of_step hs
  · exact h.shared.of_eq rfl rfl rfl rfl rfl rfl rfl rfl (h.shared.word_unlock hh hw)
      h.shared.tokens h.shared.sources h.shared.thread id h.shared.deleter h.shared.deleted
      h.shared.wins h.shared.done
  · rfl
  · exact ⟨fun _ _ => Iff.rfl, fun _ _ _ => rfl, fun _ _ _ => rfl,
      fun u hu hh => by simp at hh, fun _ _ hd hn => ⟨hd, hn⟩⟩
  · exact fun u f' hf' => keeps_unlock w (hf'.locked_eq_false (.inr hh))
  · intro hok hk
    apply hok.replace hk ((keeps_unlock w hlock).holds hg) hobj rfl rfl hwin
    · intro cb _ hcb
      by_cases hf : f.serves = some cb
      · exact .inl (hserves.trans hf)
      · exact .inr ⟨hcb, hf⟩
    · exact fun hh' => by simp at hh'
    · exact fun hd hn => by simp [hok.deletes_top hd hn] at hdel

end Lock

section Request

variable [DecidableEq T] [DecidableEq C] {k : K} {anyMore : Bool} {n : ℕ}

/-- `__try_lock_and_signal_until_signalled`. -/
theorem Inv.signal (h : s.Inv) (old : Option ℕ) (spurious : Bool)
    (hs : s.stack t = .signal k old :: rest) :
    ∃ s', s.advance t spurious rest (.signal k old) = some s' ∧ s'.Inv := by
  have hf : k ∈ s.sources := h.top hs
  have hd : s.deleted = false := h.shared.not_deleted_of_source hf
  have hload : ∀ w, (s.goto t (.signal k w :: rest)).Inv := fun w =>
    h.turn hs hf rfl rfl rfl rfl rfl
  cases old with
  | none =>
    simp only [advance, load_eq hd, Option.bind_eq_bind, Option.bind_some]
    exact ⟨_, rfl, hload _⟩
  | some old =>
    simp only [advance]
    split
    · exact ⟨_, rfl, h.return hs rfl rfl rfl rfl⟩
    · rename_i hreq
      apply exchange_inv hd (hload _)
      rintro hl rfl
      have hnone : s.holder = none := h.shared.holder_eq_none hl
      have hwin : s.winner = none := h.shared.winner_eq_none (by simpa using hreq)
      have hcur : s.current = none := by
        by_contra hcur
        obtain ⟨cb, hcb⟩ := Option.ne_none_iff_exists'.1 hcur
        obtain ⟨-, hthread, -⟩ := (h.shared.callback cb).current hcb
        obtain ⟨u, hu⟩ := Option.ne_none_iff_exists'.1 hthread
        simp [h.shared.thread u hu] at hwin
      have hword := h.shared.word
      simp only [hnone, hwin, Option.isSome_none] at hword
      apply h.of_step hs
      · refine h.shared.of_eq rfl rfl rfl rfl rfl rfl rfl rfl ?_ h.shared.tokens
          h.shared.sources ?_ id h.shared.deleter h.shared.deleted ?_ h.shared.done
        · simp only [hword, pack_or_requested, Option.isSome_some]
        · intro u hu
          have hw := h.shared.thread u hu
          simp [hwin] at hw
        · simp
      · rfl
      · refine ⟨?_, ?_, ?_, ?_, fun _ _ hd hn => ⟨hd, hn⟩⟩
        · intro u hu
          simp [hwin, Ne.symm hu]
        · simp [hwin]
        · simp [hwin]
        · intro u hu hh
          exact absurd (Option.some.inj hh) (Ne.symm hu)
      · intro u f' hf'
        have hl : f'.locked = false := hf'.locked_eq_false (.inl hnone)
        exact .of_eq rfl rfl rfl rfl rfl rfl rfl rfl (fun _ _ => id) (fun _ _ => id)
          (fun hl' => by simp [hl] at hl') (by simp [hwin]) fun _ => ⟨rfl, rfl⟩
      · intro hok hk
        have hcount : rest.countP Frame.winning = 0 := by
          simpa [List.countP_cons, Frame.winning] using hok.notWinning (by simp [hwin])
        constructor
        · intro f' hf'
          rcases List.mem_cons.1 hf' with rfl | hf'
          · exact ⟨hf, rfl, rfl, hcur⟩
          · exact (hk f' hf').holds (hok.holds f' (List.mem_cons_of_mem _ hf'))
        · exact hok.below
        · simpa [List.filterMap_cons, Frame.object] using hok.objects
        · intro _
          simp [List.countP_cons, Frame.winning, hcount, h.shared.wins hwin]
        · simp
        · simp [hcur]
        · exact fun _ => ⟨.setThread k, by simp, rfl⟩
        · intro hdel hn
          cases hok.deletes_top hdel hn

theorem Inv.setThread (h : s.Inv) (spurious : Bool) (hs : s.stack t = .setThread k :: rest) :
    ∃ s', s.advance t spurious rest (.setThread k) = some s' ∧ s'.Inv := by
  obtain ⟨hf, hh, hw, hc⟩ := h.top hs
  have hd : s.deleted = false := h.shared.not_deleted_of_source hf
  simp only [advance, load_eq hd, Option.bind_eq_bind, Option.bind_some]
  refine ⟨_, rfl, ?_⟩
  apply h.of_step hs
  · refine h.shared.of_eq rfl rfl rfl rfl rfl rfl rfl rfl h.shared.word h.shared.tokens
      h.shared.sources ?_ (by simp) h.shared.deleter h.shared.deleted h.shared.wins
      h.shared.done
    intro u hu
    exact Option.some.inj hu ▸ hw
  · rfl
  · exact .of_eq rfl rfl rfl rfl rfl rfl
  · intro u f' hf'
    have hfw : f'.winning = false := hf'.winning_eq_false (h.top hs) rfl
    exact ⟨fun _ _ => id, fun _ _ => id, fun _ => ⟨rfl, rfl, rfl⟩, fun _ => id,
      fun hw' => by simp [hfw] at hw', fun cb _ => .of_eq rfl rfl rfl rfl rfl rfl Iff.rfl,
      fun _ => ⟨rfl, rfl⟩, fun _ _ => id⟩
  · intro hok hk
    have hg : Frame.Holds { s with signallingThread := some t } t (.dequeue k) :=
      ⟨hf, hh, hw, rfl, hc⟩
    apply hok.replace hk hg rfl rfl rfl rfl
    · intro cb _ hcb
      simp [hc] at hcb
    · exact fun _ => rfl
    · intro hdel hn
      cases hok.deletes_top hdel hn

omit [DecidableEq T] in
theorem keepsObject_dequeue {links : Intrusive.Links C Callback} {q : List C} {c : C}
    {x : Intrusive.Cell C Callback} (hq : s.queue = cb :: q) (hc : s.current = none)
    (hkept : Intrusive.Links.Kept (cb :: q) s.links links)
    (hcbq : cb ∉ q) (hx : links.cell cb = some x) (hprev : x.prev = none)
    (hr : x.data.isRemoved = none) :
    KeepsObject s { s with links, queue := q, current := some cb } c := by
  have hout : c ∉ s.queue → links.cell c = s.links.cell c ∧ some cb ≠ some c := by
    intro hmem
    rw [hq] at hmem
    exact ⟨hkept.outside c hmem, fun heq => hmem (by simp [Option.some.inj heq])⟩
  have hcell : ∀ y, s.links.cell c = some y → ∃ z, links.cell c = some z ∧ z.data = y.data := by
    intro y hy
    simpa [hy] using hkept.data c
  constructor
  · rfl
  · rfl
  · exact fun hmem hmem' => hmem (hq ▸ List.mem_cons_of_mem cb hmem')
  · intro n hb
    obtain ⟨hcell', hne⟩ := hout hb.queue
    exact ⟨hb.starts, fun hmem => hb.queue (hq ▸ List.mem_cons_of_mem cb hmem), hne,
      hcell'.symm ▸ hb.cell⟩
  · intro hl
    obtain ⟨hcell', hne⟩ := hout hl.queue
    exact ⟨hcell'.symm ▸ hl.cell, fun hmem => hl.queue (hq ▸ List.mem_cons_of_mem cb hmem), hne⟩
  · intro y hy
    by_cases hccb : c = cb
    · subst hccb
      exact ⟨x, hx, .inr (.inl rfl), fun _ => hprev, fun n hn => by simp [hr] at hn⟩
    · obtain ⟨z, hz, hzy⟩ := hcell y hy.cell
      refine ⟨z, hz, ?_, ?_, ?_⟩
      · rcases hy.somewhere with hmem | hcur | hfin
        · rw [hq] at hmem
          exact .inl ((List.mem_cons.1 hmem).resolve_left hccb)
        · simp [hc] at hcur
        · exact .inr (.inr (hzy ▸ hfin))
      · intro hmem
        have hnot : c ∉ s.queue := hq ▸ List.not_mem_cons_of_ne_of_not_mem hccb hmem
        obtain rfl : z = y := Option.some.inj (hz.symm.trans ((hout hnot).1.trans hy.cell))
        exact hy.prev hnot
      · intro n hn
        have hcur := (hy.isRemoved n (hzy ▸ hn)).1
        simp [hc] at hcur
  · intro y hy
    obtain ⟨z, hz, hzy⟩ := hcell y hy
    exact ⟨z, hz, by rw [hzy]⟩

/-- `__request_stop` takes the first callback out of the list, or ends when there is none. -/
theorem Inv.dequeue (h : s.Inv) (spurious : Bool) (hs : s.stack t = .dequeue k :: rest) :
    ∃ s', s.advance t spurious rest (.dequeue k) = some s' ∧ s'.Inv := by
  obtain ⟨hf, hh, hw, ht, hc⟩ := h.top hs
  have hd : s.deleted = false := h.shared.not_deleted_of_source hf
  simp only [advance, load_eq hd, Option.bind_eq_bind, Option.bind_some]
  have hhead := h.shared.links.head
  cases hq : s.queue with
  | nil =>
    simp only [hhead, hq, List.head?_nil]
    exact ⟨_, rfl, h.turn hs ⟨hf, hh, hw, hc, hq⟩ rfl rfl rfl rfl rfl⟩
  | cons cb q =>
    have hrep : s.links.Represents (cb :: q) := hq ▸ h.shared.links
    obtain ⟨links, x, hpop, hrep', hkept, hx, hprev⟩ := hrep.popFront
    have hcbq : cb ∉ q := (List.nodup_cons.1 hrep.nodup).1
    obtain ⟨hzero, y, hy, hyr, hyf⟩ := (h.shared.callback cb).queued (by simp [hq])
    have hxy : x.data = y.data := by simpa [hx, hy] using hkept.data cb
    simp only [hhead, hq, List.head?_cons, hpop, Option.bind_some, List.tail_cons]
    refine ⟨_, rfl, ?_⟩
    have hko : ∀ c, KeepsObject s { s with links, queue := q, current := some cb } c :=
      fun c => keepsObject_dequeue hq hc hkept hcbq hx hprev (hxy ▸ hyr)
    apply h.of_step hs
    · refine ⟨h.shared.word, h.shared.tokens, h.shared.sources, hrep', fun c => ?_,
        h.shared.thread, h.shared.refs, h.shared.deleter, h.shared.deleted, h.shared.wins,
        fun hwins => absurd (h.wins_eq_zero hs rfl) hwins, h.shared.flags⟩
      by_cases hccb : c = cb
      · subst hccb
        refine ⟨fun hmem => absurd hmem hcbq, fun _ => ⟨hcbq, by simp [ht], x, hx, hxy ▸ hyf⟩,
          fun hp => ?_, fun hp => (hko c).settled ((h.shared.callback c).alive hp), fun hp => ?_,
          (h.shared.callback c).starts, fun z hz hzf => ?_⟩
        · simp [((h.shared.callback c).unborn hp).1] at hy
        · simp [(h.shared.callback c).dead hp] at hy
        · obtain rfl : x = z := Option.some.inj (hx.symm.trans hz)
          simp [hxy, hyf] at hzf
      · apply (h.shared.callback c).of_data (hko c) (hkept.data c)
        · exact fun hmem => hq ▸ List.mem_cons_of_mem cb hmem
        · exact fun hcur => absurd (Option.some.inj hcur).symm hccb
        · rfl
        · exact id
    · rfl
    · refine ⟨fun _ _ => Iff.rfl, fun _ _ _ => rfl, fun u hu hwu => ?_, fun _ _ => id,
        fun _ _ hdel hn => ⟨hdel, hn⟩⟩
      exact absurd (Option.some.inj (hwu.symm.trans hw)) hu
    · intro u f' hf'
      have hfw : f'.winning = false := hf'.winning_eq_false (h.top hs) rfl
      have hfl : f'.locked = false := hf'.locked_eq_false (.inr hh)
      exact ⟨fun _ _ => id, fun _ _ => id, fun hl => by simp [hfl] at hl, fun _ => id,
        fun hw' => by simp [hfw] at hw', fun c _ => hko c, fun _ => ⟨rfl, rfl⟩,
        fun _ _ => id⟩
    · intro hok hk
      have hg : Frame.Holds { s with links, queue := q, current := some cb } t
          (.unlockToRun k cb links.head.isSome) := by
        refine ⟨hf, hh, hw, ht, rfl, fun hm => ?_, hzero, x, hx, hxy ▸ hyr, hxy ▸ hyf⟩
        simpa [hrep'.head] using hm
      apply hok.replace hk hg rfl rfl rfl rfl
      · exact fun c _ hcur => .inl hcur
      · exact fun _ => rfl
      · intro hdel hn
        cases hok.deletes_top hdel hn

/-- `__request_stop` writes to the callback that it has taken out of the list. -/
theorem Inv.serve {x y : Intrusive.Cell C Callback} {fs : List (Frame C K)}
    {flags : ℕ → Option Bool} {next : ℕ} {starts : C → ℕ} {cur : Option C} {wins : ℕ}
    (h : s.Inv) (s₁ : State T C K) (hs : s.stack t = f :: rest) (hw : f.winning = true)
    (hcur : s.current = some cb) (hx : s.links.cell cb = some x)
    (hs₁ : s₁ = { s with
      links := s.links.setCell cb (some y)
      flags, starts, wins, nextFlag := next, current := cur })
    (hlinks : y.next = x.next ∧ y.prev = x.prev) (hstate : y.data.state = x.data.state)
    (hstarts : ∀ c, c ≠ cb → starts c = s.starts c) (hone : starts cb = 1)
    (hflags : ∀ n, next ≤ n → flags n = none) (hcur₁ : ∀ c, cur = some c → c = cb)
    (hfin : cur = some cb → y.data.callbackFinishedExecuting = false)
    (hdone : wins ≠ 0 → s.queue = [] ∧ cur = none)
    (hreg : s.Registered cb x → s₁.Registered cb y)
    (hown : s.StackOk t (f :: rest) → (∀ g ∈ rest, Keeps s s₁ g) → s₁.StackOk t fs) :
    (s₁.goto t fs).Inv := by
  have hwin : s.winner = some t := (h.top hs).winner hw
  have hcb : s₁.links.cell cb = some y := by simp [hs₁]
  have hother : ∀ c, c ≠ cb → s₁.links.cell c = s.links.cell c := by
    intro c hc
    rw [hs₁]
    exact Intrusive.Links.cell_setCell_of_ne _ _ hc
  have hcurne : ∀ c, c ≠ cb → s.current ≠ some c := by
    intro c hc hcur'
    exact hc (Option.some.inj (hcur'.symm.trans hcur))
  obtain ⟨hcbq, hset, -⟩ := (h.shared.callback cb).current hcur
  have hko : ∀ c, KeepsObject s s₁ c := by
    intro c
    by_cases hc : c = cb
    · subst hc
      constructor
      · rw [hs₁]
      · rw [hs₁]
      · simp [hs₁]
      · exact fun n hb => absurd hcur hb.current
      · exact fun hl => absurd hcur hl.current
      · intro z hz
        obtain rfl : x = z := Option.some.inj (hx.symm.trans hz.cell)
        exact ⟨y, hreg hz⟩
      · exact fun z hz => ⟨y, hcb, by rw [hstate, Option.some.inj (hx.symm.trans hz)]⟩
    · have hne : cur ≠ some c := fun hcur' => hc (hcur₁ c hcur')
      apply KeepsObject.of_cell (hother c hc)
      · rw [hs₁]
      · simp [hs₁, hne, hcurne c hc]
      · exact fun hcur' => absurd hcur' (hcurne c hc)
      · simpa [hs₁] using hstarts c hc
      · rw [hs₁]
      · rw [hs₁]
  have hrep : s₁.links.Represents s.queue := hs₁ ▸ h.shared.links.setCell hx hlinks
  have hok : ∀ c, s₁.CallbackOk c := by
    intro c
    by_cases hc : c = cb
    · subst hc
      have hok := h.shared.callback c
      subst hs₁
      constructor
      · exact fun hmem => absurd hmem hcbq
      · exact fun hcur' => ⟨hcbq, hset, y, hcb, hfin hcur'⟩
      · intro hp
        simp [(hok.unborn hp).1] at hx
      · exact fun hp => (hko c).settled (hok.alive hp)
      · intro hp
        simp [hok.dead hp] at hx
      · exact hone.le
      · exact fun _ _ _ => ⟨hone, hset⟩
    · apply (h.shared.callback c).of_data (hko c) (by rw [hother c hc])
      · simp [hs₁]
      · intro hcur'
        rw [hs₁] at hcur'
        exact absurd (hcur₁ c hcur') hc
      · simpa [hs₁] using hstarts c hc
      · rw [hs₁]
        exact id
  subst hs₁
  apply h.of_step hs
  · exact ⟨h.shared.word, h.shared.tokens, h.shared.sources, hrep, hok, h.shared.thread,
      h.shared.refs, h.shared.deleter, h.shared.deleted, by simp [hwin], hdone, hflags⟩
  · rfl
  · have hne : ∀ u, u ≠ t → s.winner ≠ some u := fun u hu hwu =>
      hu (Option.some.inj (hwu.symm.trans hwin))
    exact ⟨fun _ _ => Iff.rfl, fun u hu hwu => absurd hwu (hne u hu),
      fun u hu hwu => absurd hwu (hne u hu), fun _ _ => id, fun _ _ hd hn => ⟨hd, hn⟩⟩
  · intro u g hg
    have hgw : g.winning = false := hg.winning_eq_false (h.top hs) hw
    exact ⟨fun _ _ => id, fun _ _ => id, fun _ => ⟨rfl, rfl, rfl⟩, fun _ => id,
      fun hgw' => by simp [hgw] at hgw', fun c _ => hko c, fun _ => ⟨rfl, rfl⟩,
        fun _ _ => id⟩
  · exact hown

theorem Inv.mark (h : s.Inv) (spurious : Bool) (hs : s.stack t = .mark k cb anyMore :: rest) :
    ∃ s', s.advance t spurious rest (.mark k cb anyMore) = some s' ∧ s'.Inv := by
  obtain ⟨hf, hser⟩ := h.top hs
  obtain ⟨x, hx, hr, hfin⟩ := hser.cell
  simp only [advance, hx, Option.bind_eq_bind, Option.bind_some]
  refine ⟨_, rfl, ?_⟩
  apply h.serve { s with
    links := s.links.setCell cb
      (some { x with data := { x.data with isRemoved := some s.nextFlag } })
    flags := Function.update s.flags s.nextFlag (some false)
    nextFlag := s.nextFlag + 1
    starts := Function.update s.starts cb (s.starts cb + 1) } hs rfl hser.current hx rfl
  · exact ⟨rfl, rfl⟩
  · rfl
  · exact fun c hc => by simp [hc]
  · simp [hser.starts]
  · intro n hn
    have hlt : s.nextFlag + 1 ≤ n := hn
    have hne : n ≠ s.nextFlag := by omega
    simpa [hne] using h.shared.flags n (Nat.le_of_succ_le hlt)
  · exact fun c hc => Option.some.inj (hc.symm.trans hser.current)
  · exact fun _ => hfin
  · exact fun hwins => absurd (h.wins_eq_zero hs rfl) hwins
  · intro hz
    exact ⟨by simp, .inr (.inl hser.current), hz.prev, fun n hn => ⟨hser.current, by simp_all⟩⟩
  · intro hok hk
    refine hok.replace hk ?_ rfl rfl rfl rfl ?_ ?_ ?_
    · refine ⟨hf, .inl ⟨⟨hser.winner, hser.thread, hser.current, hser.last, ?_, ?_⟩, ?_⟩⟩
      · simp [hser.starts]
      · exact ⟨{ x with data := { x.data with isRemoved := some s.nextFlag } }, by simp, rfl, hfin⟩
      · exact Function.update_self ..
    · exact fun c _ hcur => .inl (hser.current.symm.trans hcur)
    · exact fun hh => by cases hok.locked_top hh
    · exact fun hd hn => by cases hok.deletes_top hd hn

theorem Inv.clearRemoved (h : s.Inv) (spurious : Bool)
    (hs : s.stack t = .clearRemoved k cb anyMore n :: rest) :
    ∃ s', s.advance t spurious rest (.clearRemoved k cb anyMore n) = some s' ∧ s'.Inv := by
  obtain ⟨hf, hser, -⟩ := h.top hs
  obtain ⟨x, hx, hr, hfin⟩ := hser.cell
  simp only [advance, hx, Option.bind_eq_bind, Option.bind_some]
  refine ⟨_, rfl, ?_⟩
  apply h.serve { s with
    links := s.links.setCell cb
      (some { x with data := { x.data with isRemoved := none } }) } hs rfl hser.current hx rfl
  · exact ⟨rfl, rfl⟩
  · rfl
  · exact fun _ _ => rfl
  · exact hser.starts
  · exact h.shared.flags
  · exact fun c hc => Option.some.inj (hc.symm.trans hser.current)
  · exact fun _ => hfin
  · exact fun hwins => absurd (h.wins_eq_zero hs rfl) hwins
  · exact fun hz => ⟨by simp, .inr (.inl hser.current), hz.prev, fun n hn => by simp at hn⟩
  · intro hok hk
    refine hok.replace hk ?_ rfl rfl rfl rfl ?_ ?_ ?_
    · exact ⟨hf, hser.winner, hser.thread, hser.current, hser.last, hser.starts,
        { x with data := { x.data with isRemoved := none } }, by simp, rfl, hfin⟩
    · exact fun c _ hcur => .inl (hser.current.symm.trans hcur)
    · exact fun hh => by cases hok.locked_top hh
    · exact fun hd hn => by cases hok.deletes_top hd hn

theorem Inv.storeFinished (h : s.Inv) (spurious : Bool)
    (hs : s.stack t = .storeFinished k cb anyMore n :: rest) :
    ∃ s', s.advance t spurious rest (.storeFinished k cb anyMore n) = some s' ∧ s'.Inv := by
  obtain ⟨hf, hser⟩ := h.top hs
  obtain ⟨x, hx, hr, hfin⟩ := hser.cell
  simp only [advance, hx, Option.bind_eq_bind, Option.bind_some]
  refine ⟨_, rfl, ?_⟩
  have hflags : ∀ m, s.nextFlag ≤ m → Function.update s.flags n none m = none := by
    intro m hm
    by_cases hmn : m = n
    · simp [hmn]
    · simpa [hmn] using h.shared.flags m hm
  have hreg : ∀ s₁ : State T C K, s₁.links.cell cb = some { x with
      data := { x.data with callbackFinishedExecuting := true } } → s₁.queue = s.queue →
      s.Registered cb x → s₁.Registered cb { x with
        data := { x.data with callbackFinishedExecuting := true } } := by
    intro s₁ hcell hq hz
    exact ⟨hcell, .inr (.inr rfl), hq ▸ hz.prev, fun m hm => by simp [hr] at hm⟩
  cases anyMore with
  | true =>
    apply h.serve { s with
      links := s.links.setCell cb
        (some { x with data := { x.data with callbackFinishedExecuting := true } })
      flags := Function.update s.flags n none
      current := none } hs rfl hser.current hx rfl ⟨rfl, rfl⟩ rfl (fun _ _ => rfl) hser.starts
      hflags (by simp) (by simp) fun hwins => absurd (h.wins_eq_zero hs rfl) hwins
    · exact hreg _ (by simp) rfl
    · intro hok hk
      exact (hok.afterRun hk rfl rfl rfl rfl hf rfl hser.winner hser.thread rfl rfl rfl rfl).1
        rfl rfl
  | false =>
    apply h.serve { s with
      links := s.links.setCell cb
        (some { x with data := { x.data with callbackFinishedExecuting := true } })
      flags := Function.update s.flags n none
      current := none
      wins := s.wins + 1 } hs rfl hser.current hx rfl ⟨rfl, rfl⟩ rfl (fun _ _ => rfl) hser.starts
      hflags (by simp) (by simp) fun _ => ⟨hser.last rfl, rfl⟩
    · exact hreg _ (by simp) rfl
    · intro hok hk
      exact (hok.afterRun hk rfl rfl rfl rfl hf rfl hser.winner hser.thread rfl rfl rfl rfl).2
        rfl rfl

/-- A callback that `__request_stop` has called returns. -/
theorem Inv.running (h : s.Inv) (spurious : Bool)
    (hs : s.stack t = .running k cb anyMore n :: rest) :
    ∃ s', s.advance t spurious rest (.running k cb anyMore n) = some s' ∧ s'.Inv := by
  obtain ⟨hf, hrun⟩ := h.top hs
  rcases hrun with ⟨hser, hflag⟩ | hcut
  · simp only [advance, hflag, Option.bind_eq_bind, Option.bind_some]
    exact ⟨_, rfl, h.turn hs ⟨hf, hser, hflag⟩ rfl rfl rfl rfl rfl⟩
  · simp only [advance, hcut.flag, Option.bind_eq_bind, Option.bind_some]
    refine ⟨_, rfl, ?_⟩
    have hflags : ∀ m, s.nextFlag ≤ m → Function.update s.flags n none m = none := by
      intro m hm
      by_cases hmn : m = n
      · simp [hmn]
      · simpa [hmn] using h.shared.flags m hm
    have hgo : ∀ w, ∀ fs : List (Frame C K), (w ≠ 0 → s.queue = []) →
        (s.StackOk t (.running k cb anyMore n :: rest) →
        (∀ g ∈ rest, Keeps s { s with flags := Function.update s.flags n none, wins := w } g) →
        { s with flags := Function.update s.flags n none, wins := w }.StackOk t fs) →
        ({ s with flags := Function.update s.flags n none, wins := w }.goto t fs).Inv := by
      intro w fs hq hfs
      have hko : ∀ c, KeepsObject s
          { s with flags := Function.update s.flags n none, wins := w } c := fun c =>
        .of_cell rfl Iff.rfl Iff.rfl (fun hc => by simp [hcut.current] at hc) rfl rfl Iff.rfl
      apply h.of_step hs
      · exact ⟨h.shared.word, h.shared.tokens, h.shared.sources, h.shared.links,
          fun c => (h.shared.callback c).of_data (hko c) rfl id id rfl id, h.shared.thread,
          h.shared.refs, h.shared.deleter, h.shared.deleted,
          fun hw => by simp [hcut.winner] at hw, fun hw => ⟨hq hw, hcut.current⟩, hflags⟩
      · rfl
      · have hne : ∀ u, u ≠ t → s.winner ≠ some u := fun u hu hwu =>
          hu (Option.some.inj (hwu.symm.trans hcut.winner))
        exact ⟨fun _ _ => Iff.rfl, fun u hu hwu => absurd hwu (hne u hu),
          fun u hu hwu => absurd hwu (hne u hu), fun _ _ => id, fun _ _ hd hn => ⟨hd, hn⟩⟩
      · intro u g hg
        have hgw : g.winning = false := hg.winning_eq_false (h.top hs) rfl
        exact ⟨fun _ _ => id, fun _ _ => id, fun _ => ⟨rfl, rfl, rfl⟩, fun _ => id,
          fun hgw' => by simp [hgw] at hgw', fun c _ => hko c, fun _ => ⟨rfl, rfl⟩,
        fun _ _ => id⟩
      · exact hfs
    cases anyMore with
    | true =>
      apply hgo s.wins _ fun hwins => absurd (h.wins_eq_zero hs rfl) hwins
      intro hok hk
      exact (hok.afterRun hk rfl rfl rfl rfl hf rfl hcut.winner hcut.thread hcut.current rfl rfl
        rfl).1 rfl rfl
    | false =>
      apply hgo (s.wins + 1) _ fun _ => hcut.last rfl
      intro hok hk
      exact (hok.afterRun hk rfl rfl rfl rfl hf rfl hcut.winner hcut.thread hcut.current rfl rfl
        rfl).2 rfl rfl

/-- `__lock` in `__request_stop`. -/
theorem Inv.relock (h : s.Inv) (old : Option ℕ) (spurious : Bool)
    (hs : s.stack t = .relock k old :: rest) :
    ∃ s', s.advance t spurious rest (.relock k old) = some s' ∧ s'.Inv := by
  obtain ⟨hf, hw, ht, hc⟩ := h.top hs
  have hd : s.deleted = false := h.shared.not_deleted_of_source hf
  have hload : ∀ w, (s.goto t (.relock k w :: rest)).Inv := fun w =>
    h.turn hs ⟨hf, hw, ht, hc⟩ rfl rfl rfl rfl rfl
  cases old with
  | none =>
    simp only [advance, load_eq hd, Option.bind_eq_bind, Option.bind_some]
    exact ⟨_, rfl, hload _⟩
  | some old =>
    simp only [advance]
    apply exchange_inv hd (hload _)
    rintro hl rfl
    exact h.lock hs hl ⟨hf, rfl, hw, ht, hc⟩ rfl rfl rfl rfl rfl

theorem Inv.unlockToRun (h : s.Inv) (spurious : Bool)
    (hs : s.stack t = .unlockToRun k cb anyMore :: rest) :
    ∃ s', s.advance t spurious rest (.unlockToRun k cb anyMore) = some s' ∧ s'.Inv := by
  obtain ⟨hf, -, hser⟩ := h.top hs
  simp only [advance, load_eq (h.shared.not_deleted_of_source hf), Option.bind_eq_bind,
    Option.bind_some]
  exact ⟨_, rfl, h.unlock hs rfl rfl ⟨hf, hser⟩ rfl rfl rfl rfl rfl⟩

/-- `__request_stop` has found the list empty, and returns true. -/
theorem Inv.unlockToReturn (h : s.Inv) (spurious : Bool)
    (hs : s.stack t = .unlockToReturn k :: rest) :
    ∃ s', s.advance t spurious rest (.unlockToReturn k) = some s' ∧ s'.Inv := by
  obtain ⟨hf, hh, hw, hc, hq⟩ := h.top hs
  simp only [advance, load_eq (h.shared.not_deleted_of_source hf), Option.bind_eq_bind,
    Option.bind_some]
  refine ⟨_, rfl, ?_⟩
  generalize hword : sub64 s.word lockedFlag = w
  apply h.of_step hs
  · refine h.shared.of_eq rfl rfl rfl rfl rfl rfl rfl rfl ?_ h.shared.tokens h.shared.sources
      h.shared.thread id h.shared.deleter h.shared.deleted (fun hn => ?_) fun _ => ⟨hq, hc⟩
    · exact h.shared.word_unlock hh hword
    · simp [hw] at hn
  · rfl
  · have hne : ∀ u, u ≠ t → s.winner ≠ some u := fun u hu hwu =>
      hu (Option.some.inj (hwu.symm.trans hw))
    exact ⟨fun _ _ => Iff.rfl, fun u hu hwu => absurd hwu (hne u hu), fun _ _ _ => rfl,
      fun u hu hh => by simp at hh, fun _ _ hd hn => ⟨hd, hn⟩⟩
  · intro u g hg
    have hgl : g.locked = false := hg.locked_eq_false (.inr hh)
    exact .of_eq rfl rfl rfl rfl rfl rfl rfl rfl (fun _ _ => id) (fun _ _ => id)
      (fun hgl' => by simp [hgl] at hgl') (fun _ => id) fun _ => ⟨rfl, rfl⟩
  · intro hok hk
    apply hok.pop hk rfl rfl
    · simp [hc]
    · simp
    · intro hd
      by_contra hn
      cases hok.deletes_top hd (by simpa using hn)

end Request

end State

end Jkl.StopState
