import Jkl.Client.Awaits

/-! What the callbacks of a read do after a stop request. -/
namespace Jkl.Client.System

variable {β : Type*}

/-- A step does what a stop request asks for: once there is one, a callback of an awaiter with
stop enabled fails the transfer, touches no buffer and does not pause, and the await returns
`operation_aborted`, an await that begins later at once. With stop not enabled no callback
aborts. A callback that skips its data is not one of the awaiter. -/
def Heeds (s : System β) : Event β → System β → Prop
  | .callback k d, t => ∀ w, s.aw = some w → s.req.callback k ≠ .skip →
      (w.enableStop = true → s.stopRequested = true →
        (invoke k d w s.req).2.2 = .minusOne ∧ t.req.state = s.req.state ∧
          t.aw = some { w with ec := some .operationAborted }) ∧
      (w.enableStop = false → (invoke k d w s.req).2.2 ≠ .minusOne ∧
        ∀ w', t.aw = some w' → w'.ec = w.ec ∨ w'.ec = some .noBufferSpace)
  | .await _ _ enableStop stop _ _, t => enableStop = true → stop = true →
      t.aw = none ∧ t.returned = s.returned ++ [(s.awaits, some .operationAborted)]
  | .run (.resume _), t | .suspend, t => s.late = true → t.aw = none →
      ∃ n, t.returned = s.returned ++ [(n, some .operationAborted)]
  | _, _ => True

/-- A callback of an awaiter with stop enabled is called after the stop request. -/
def Late (s : System β) : Event β → Prop
  | .callback k _ => s.req.callback k ≠ .skip ∧ s.stopRequested = true ∧
      ∃ w, s.aw = some w ∧ w.enableStop = true
  | _ => False

/-- No such callback has been called for the current awaiter, and where stop is not enabled
nothing sets the flag of a request. -/
structure InTime (s : System β) : Prop where
  late : s.late = false
  clean : ∀ w, s.aw = some w → w.enableStop = false →
    w.stopRequested = false ∧ w.stopCb = false

section Steps

variable {s t : System β} {w : Awaiter β} {k : Kind} {d : List β} {e : Event β} {st : StateE}

theorem init_inTime : (init : System β).InTime := ⟨rfl, nofun⟩

theorem InTime.examStop (hs : s.InTime) (haw : s.aw = some w) : w.examStop = (false, w) :=
  Awaiter.examStop_eq fun he => (hs.clean w haw he).1

theorem InTime.gone (hlate : t.late = false) (haw : t.aw = none) : t.InTime :=
  ⟨hlate, fun w hw => by simp [haw] at hw⟩

theorem InTime.setAw (hlate : t.late = false) (haw : t.aw = some w)
    (hclean : w.enableStop = false → w.stopRequested = false ∧ w.stopCb = false) :
    t.InTime := by
  refine ⟨hlate, fun v hv => ?_⟩
  obtain rfl := Option.some.inj (haw.symm.trans hv)
  exact hclean

theorem InTime.callback (hs : s.InTime) (haw : s.aw = some w) (hl : ¬ s.Late (.callback k d)) :
    (s.callback k d w).InTime := by
  have hclean := hs.clean w haw
  rcases hinv : invoke k d w s.req with ⟨w', r', ret⟩
  have hspec := invoke_spec k d (hs.examStop haw) hinv
  have haw' : (s.callback k d w).aw = some w' := by simp only [System.callback, hinv]
  refine .setAw ?_ haw' ?_
  · simp only [System.callback, hinv, hs.late, Bool.false_or]
    by_contra h
    simp only [Bool.not_eq_false, Bool.and_eq_true, bne_iff_ne] at h
    exact hl ⟨h.2, h.1.2, w, haw, h.1.1⟩
  · rw [hspec.enableStop, hspec.stopRequested, hspec.stopCb]
    exact hclean

theorem InTime.resume (hs : s.InTime) : s.resume.InTime := by
  unfold System.resume
  split
  next haw => exact .gone hs.late haw
  next w haw => exact .gone hs.late rfl

theorem InTime.suspend (hs : s.InTime) (w : Awaiter β) : (s.suspend st w).InTime := by
  unfold System.suspend
  split
  · exact .gone hs.late rfl
  · refine .setAw hs.late rfl fun he => ?_
    dsimp only at he ⊢
    rw [he]
    exact ⟨Bool.false_and _, rfl⟩

theorem inTime_step (hs : s.InTime) (h : step s e = some t) (hl : ¬ s.Late e) : t.InTime := by
  cases step_cases h with
  | await rt two es stop bw bw2 haw =>
    unfold System.await
    dsimp only
    split
    · exact .gone rfl rfl
    · exact .setAw rfl rfl fun _ => ⟨rfl, rfl⟩
  | call ec st w hphase haw => exact .setAw hs.late rfl (hs.clean w haw)
  | suspend st w hphase haw => exact hs.suspend w
  | callback k d w haw hrun => exact hs.callback haw hl
  | done ec w hadded haw => exact .setAw hs.late rfl (hs.clean w haw)
  | doneNone ec hadded haw => exact .gone hs.late haw
  | runPause n hc => exact ⟨hs.late, hs.clean⟩
  | runResume n hc =>
    have htake : (s.take (.resume n)).InTime := ⟨hs.late, hs.clean⟩
    exact htake.resume
  | requestStop w haw =>
    refine .setAw hs.late rfl fun he => ?_
    obtain ⟨hflag, hcb⟩ := hs.clean w haw he
    exact ⟨by simp [hflag, hcb], hcb⟩
  | recycle haw => exact ⟨hs.late, hs.clean⟩

theorem heeds_of_not_late (hs : s.InTime) (h : step s e = some t) (hl : ¬ s.Late e) :
    s.Heeds e t := by
  cases step_cases h with
  | callback k d w haw hrun =>
    intro v hv hcb
    obtain rfl := Option.some.inj (haw.symm.trans hv)
    refine ⟨fun he hstop => absurd ⟨hcb, hstop, w, haw, he⟩ hl, fun _ => ?_⟩
    rcases hinv : invoke k d w s.req with ⟨w', r', ret⟩
    have hspec := invoke_spec k d (hs.examStop haw) hinv
    refine ⟨hspec.ret, fun v hv => ?_⟩
    simp only [System.callback, hinv, Option.some.injEq] at hv
    exact hv ▸ hspec.ec
  | await rt two es stop bw bw2 haw =>
    intro he hstop
    simp [System.await, he, hstop, goOn]
  | runResume n hc =>
    intro hlate
    cases hs.late.symm.trans hlate
  | suspend st w hphase haw =>
    intro hlate
    cases hs.late.symm.trans hlate
  | _ => trivial

/-- `exam_stop` never finds a request where stop is enabled. -/
theorem not_heeds_late (hs : s.InTime) (hl : s.Late e) : ¬ s.Heeds e t := by
  intro ht
  cases e with
  | callback k d =>
    obtain ⟨hcb, hstop, w, haw, he⟩ := hl
    have hret := ((ht w haw hcb).1 he hstop).1
    rcases hinv : invoke k d w s.req with ⟨w', r', ret⟩
    rw [hinv] at hret
    exact (invoke_spec k d (hs.examStop haw) hinv).ret hret
  | _ => exact hl

end Steps

/-- A run heeds the stop requests all along exactly when no callback of an awaiter with stop
enabled is called after one. -/
theorem each_heeds_iff (es : List (Event β)) :
    Steps.Each step Heeds init es ↔ Steps.Each step (fun s e _ => ¬ s.Late e) init es := by
  refine Steps.each_iff_each (I := InTime) ?_ ?_ init_inTime
  · intro s e t hs h
    constructor
    · intro ht hl
      exact not_heeds_late hs hl ht
    · intro hl
      exact heeds_of_not_late hs h hl
  · intro s e t hs h hl
    exact inTime_step hs h hl

/-- A byte that comes after the stop request goes into the buffer. -/
theorem not_each_heeds : ¬ Steps.Each step Heeds (init : System Unit)
    [.await .wd false true false ⟨true, false, 1, []⟩ ⟨true, false, 0, []⟩, .call none,
      .suspend, .requestStop, .callback .wd [()]] := by
  intro h
  obtain ⟨-, h⟩ := h _ rfl
  obtain ⟨-, h⟩ := h _ rfl
  obtain ⟨-, h⟩ := h _ rfl
  obtain ⟨-, h⟩ := h _ rfl
  obtain ⟨ht, -⟩ := h _ rfl
  have hret := ((ht _ rfl nofun).1 rfl rfl).1
  exact absurd hret nofun

end Jkl.Client.System
