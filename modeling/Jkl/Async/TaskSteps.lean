import Jkl.Async.TaskInv

/-! What a step does to the task it is about, and that no step fails. -/
namespace Jkl.Task

open CallStack (Conf)

variable {σ V E R : Type} {P : Program σ V E R} {s s' : State σ V E R} {t c d : CoroId}
  {co : Coro σ V E R} {src : Option SourceId} {ps live : List CoroId}
  {ks : List (Outcome V E → σ)} {pr pr' : Promise V E} {conf conf' : Conf σ (Outcome V E)}
  {b : σ} {o : Outcome V E} {l : Option (Label R)} {r : Except Fault (State σ V E R)}

/-- In direct style nothing happens, or one step that shows the label. -/
def Follows (P : Program σ V E R) (conf : Conf σ (Outcome V E)) (l : Option (Label R))
    (conf' : Conf σ (Outcome V E)) : Prop :=
  conf' = conf ∧ l = none ∨ CallStack.step P.direct conf l = some conf'

/-- A step of a task: it does not fail, leaves the others alone, and is one in direct style. -/
structure Moves (P : Program σ V E R) (s : State σ V E R) (t : CoroId)
    (conf : Conf σ (Outcome V E)) (l : Option (Label R)) (s' : State σ V E R) : Prop where
  outside : s.SameOutside s' t
  bounded : s'.Bounded
  next : s.next ≤ s'.next
  /-- A handle is not used again. -/
  fresh : ∀ d, s'.Live t d → s.Live t d ∨ s.next ≤ d
  task : ∃ src conf' live, At P s' t src conf' live ∧ Follows P conf l conf'

/-! One coroutine changes. -/

theorem sameOutside_set (hc : s.heap c = some ⟨pr, pt, t⟩) (hco : co.task = t) :
    s.SameOutside (s.set c co) t := by
  apply State.SameOutside.set ?_ hco
  intro co' hc'
  rw [hc] at hc'
  cases hc'
  rfl

theorem fresh_set {pt : Point σ V E R} (hc : s.heap c = some ⟨pr, pt, t⟩) (hco : co.task = t)
    (d : CoroId) (hd : (s.set c co).Live t d) : s.Live t d ∨ s.next ≤ d := by
  rcases (State.live_set hco).1 hd with rfl | hd
  · exact .inl ⟨_, hc, rfl⟩
  · exact .inl hd

theorem live_set_of_mem (hmem : ∀ d, d ∈ c :: ps ↔ s.Live t d) (hco : co.task = t) (d : CoroId) :
    d ∈ c :: ps ↔ (s.set c co).Live t d := by
  rw [State.live_set hco, ← hmem d, List.mem_cons]
  tauto

theorem At.set_running (hmem : ∀ d, d ∈ c :: ps ↔ s.Live t d)
    (ho : Open P s t src c pr ps ks) (hvoid : P.isVoid b = pr.isVoid) :
    At P (s.set c ⟨pr, .running b, t⟩) t src (.eval b ks) (c :: ps) :=
  ⟨.running State.set_self hvoid ho.set, live_set_of_mem hmem rfl⟩

theorem At.set_suspended {k : R → σ} (hmem : ∀ d, d ∈ c :: ps ↔ s.Live t d)
    (ho : Open P s t src c pr ps ks) (hvoid : P.isVoid b = pr.isVoid)
    (hb : P.act b = .suspend k) :
    At P (s.set c ⟨pr, .suspended k, t⟩) t src (.eval b ks) (c :: ps) :=
  ⟨.suspended State.set_self hb hvoid ho.set, live_set_of_mem hmem rfl⟩

/-! The end of a coroutine. -/

theorem finalSuspend_spec {pt : Point σ V E R} (hs : s.Bounded)
    (hc : s.heap c = some ⟨pr, pt, t⟩) (hmem : ∀ d, d ∈ c :: ps ↔ s.Live t d)
    (ho : Open P s t src c pr ps ks) (hcont : pr'.continuation = pr.continuation)
    (hsrc : pr'.stpSrc = pr.stpSrc) (hres : pr'.result = .ok o) :
    ∃ s' live', s.finalSuspend c ⟨pr, pt, t⟩ pr' = .ok s' ∧ s.SameOutside s' t ∧ s'.Bounded ∧
      s.next = s'.next ∧ (∀ d, d ∈ live' ↔ s.Live t d) ∧ At P s' t src (.back o ks) live' := by
  obtain ⟨hpr, hrv, hw⟩ := ho
  generalize hp : pr.continuation = cont at hw
  cases hw with
  | task =>
    refine ⟨_, [t], by simp [State.finalSuspend, State.tailResume, hcont, hp]; rfl,
      sameOutside_set hc rfl, hs.set (hs _ _ hc), rfl, hmem, ?_, live_set_of_mem hmem rfl⟩
    exact .final State.set_self (hsrc.trans hpr) hres
  | @caller _ p prp k ps ks hlt hp' hsrc' hrv' hvoid hup =>
    have hne : p ≠ c := Nat.ne_of_lt hlt
    have hp'' : (s.set c ⟨pr', .final, t⟩).heap p = some ⟨prp, .awaiting c k, t⟩ := by
      rw [State.set_of_ne hne, hp']
    refine ⟨(s.set c ⟨pr', .final, t⟩).set p ⟨prp, .resuming c k, t⟩, c :: p :: ps, ?_, ?_, ?_, rfl,
      hmem, ?_, ?_⟩
    · simp [State.finalSuspend, State.tailResume, State.resume, hcont, hp, hp'']
    · exact (sameOutside_set hc rfl).trans (sameOutside_set hp'' rfl)
    · exact (hs.set (hs _ _ hc)).set (hs _ _ hp')
    · have ho : Open P s t src p prp ps ks := ⟨hsrc', hrv', hup⟩
      have ho' : Open P (s.set c ⟨pr', .final, t⟩) t src p prp ps ks :=
        ho.congr fun q hq => State.set_of_ne (Nat.ne_of_lt (Nat.lt_trans hq hlt))
      refine .resuming State.set_self hvoid ho'.set hlt ?_ (hsrc.trans hpr) hres
      rw [State.set_of_ne hne.symm, State.set_self]
    · intro d
      rw [State.live_set rfl, State.live_set rfl, ← hmem d]
      simp only [List.mem_cons]
      tauto

/-! `co_await` of a task. -/

theorem State.Bounded.create (hs : s.Bounded) : (s.create P b t).Bounded := by
  intro d co hd
  by_cases hdn : d = s.next
  · subst hdn
    exact Nat.lt_succ_self _
  · have hd' : s.heap d = some co := by
      rw [← hd]
      exact (State.set_of_ne hdn).symm
    exact Nat.lt_succ_of_lt (hs d co hd')

theorem State.Bounded.heap_next (hs : s.Bounded) : s.heap s.next = none := by
  rw [Option.eq_none_iff_forall_ne_some]
  intro co hco
  exact Nat.lt_irrefl _ (hs _ _ hco)

theorem sameOutside_create (hs : s.Bounded) : s.SameOutside (s.create P b t) t := by
  have hset : s.SameOutside (s.set s.next ⟨.fresh (P.isVoid b), .initial b, t⟩) t := by
    apply State.SameOutside.set ?_ rfl
    intro co hco
    rw [hs.heap_next] at hco
    cases hco
  exact hset

theorem coAwait_spec {pt : Point σ V E R} {k : Outcome V E → σ} (hs : s.Bounded)
    (hc : s.heap c = some ⟨pr, pt, t⟩) (hmem : ∀ d, d ∈ c :: ps ↔ s.Live t d)
    (ho : Open P s t src c pr ps ks) (hvoid : ∀ o, P.isVoid (k o) = pr.isVoid) :
    ∃ s' live', ((s.create P b t).set c ⟨pr, .awaiting s.next k, t⟩).awaitSuspend
        s.next c pr.stpSrc = .ok s' ∧ s.SameOutside s' t ∧ s'.Bounded ∧
      s.next ≤ s'.next ∧ (∀ d, d ∈ live' ↔ d = s.next ∨ s.Live t d) ∧
      At P s' t src (.eval b (k :: ks)) live' := by
  have hlt : c < s.next := hs _ _ hc
  have hne : c ≠ s.next := Nat.ne_of_lt hlt
  let child : Promise V E := ⟨P.isVoid b, .monostate, some c, pr.stpSrc⟩
  let s₁ := (s.create P b t).set c ⟨pr, .awaiting s.next k, t⟩
  let s₂ := s₁.set s.next ⟨child, .initial b, t⟩
  have hcreate : (s.create P b t).heap s.next = some ⟨.fresh (P.isVoid b), .initial b, t⟩ :=
    State.set_self
  have hnext : s₁.heap s.next = some ⟨.fresh (P.isVoid b), .initial b, t⟩ := by
    rw [State.set_of_ne hne.symm, hcreate]
  have hc' : (s.create P b t).heap c = some ⟨pr, pt, t⟩ := (State.set_of_ne hne).trans hc
  have hchild : s₂.heap s.next = some ⟨child, .initial b, t⟩ := State.set_self
  refine ⟨s₂.set s.next ⟨child, .running b, t⟩, s.next :: c :: ps, ?_, ?_, ?_, Nat.le_succ _, ?_,
    ?_, ?_⟩
  · rw [State.awaitSuspend, hnext]
    change (s₂.tailResume (some s.next)) = _
    simp only [State.tailResume, State.resume, hchild]
  · exact ((sameOutside_create hs).trans (sameOutside_set hc' rfl)).trans
      ((sameOutside_set hnext rfl).trans (sameOutside_set hchild rfl))
  · have hb : (s.create P b t).Bounded := hs.create
    exact ((hb.set (hb _ _ hc')).set (Nat.lt_succ_self _)).set (Nat.lt_succ_self _)
  · intro d
    rw [List.mem_cons, hmem d]
  · refine .running State.set_self rfl ⟨ho.stpSrc, rfl, .caller hlt ?_ ho.stpSrc ho.rv hvoid ?_⟩
    · rw [State.set_of_ne hne, State.set_of_ne hne, State.set_self]
    · apply ho.waiting.congr
      intro q hq
      have hqc : q < c := ho.waiting.lt q hq
      have hqn : q ≠ s.next := Nat.ne_of_lt (Nat.lt_trans hqc hlt)
      rw [State.set_of_ne hqn, State.set_of_ne hqn, State.set_of_ne (Nat.ne_of_lt hqc)]
      exact State.set_of_ne hqn
  · intro d
    have hcr : (s.create P b t).Live t d ↔ d = s.next ∨ s.Live t d := State.live_set rfl
    rw [State.live_set rfl, State.live_set rfl, State.live_set rfl, hcr, ← hmem d]
    simp only [List.mem_cons]
    tauto

theorem awaitResume_spec {h : CoroId} {k : Outcome V E → σ} {pt : Point σ V E R} (hs : s.Bounded)
    (hc : s.heap c = some ⟨pr, pt, t⟩) (hmem : ∀ d, d ∈ h :: c :: ps ↔ s.Live t d)
    (ho : Open P s t src c pr ps ks) (hvoid : ∀ o, P.isVoid (k o) = pr.isVoid) (hlt : c < h)
    (hh : s.heap h = some ⟨pr', .final, t⟩) (hres : pr'.result = .ok o) :
    ∃ s' live', s.awaitResume h c ⟨pr, pt, t⟩ k = .ok s' ∧ s.SameOutside s' t ∧ s'.Bounded ∧
      s.next = s'.next ∧ (∀ d ∈ live', s.Live t d) ∧ At P s' t src (.eval (k o) ks) live' := by
  have hne : c ≠ h := Nat.ne_of_lt hlt
  have hc' : (s.erase h).heap c = some ⟨pr, pt, t⟩ := (State.erase_of_ne hne).trans hc
  refine ⟨(s.erase h).set c ⟨pr, .running (k o), t⟩, c :: ps, ?_, ?_, ?_, rfl,
    fun d hd => (hmem d).1 (List.mem_cons_of_mem _ hd), ?_⟩
  · simp only [State.awaitResume, State.destroy, hh, hres]
    rfl
  · have herase : s.SameOutside (s.erase h) t := by
      apply State.SameOutside.erase
      intro co hco
      rw [hh] at hco
      cases hco
      rfl
    exact herase.trans (sameOutside_set hc' rfl)
  · exact hs.erase.set (hs _ _ hc)
  · refine At.set_running ?_ (ho.congr ?_) (hvoid o)
    · intro d
      rw [State.live_erase, ← hmem d]
      have hnot : d ∈ c :: ps → d ≠ h := by
        intro hd
        rcases List.mem_cons.1 hd with rfl | hd
        · exact hne
        · exact Nat.ne_of_lt (Nat.lt_trans (ho.waiting.lt d hd) hlt)
      rw [List.mem_cons (a := d) (b := h)]
      tauto
    · intro q hq
      exact State.erase_of_ne (Nat.ne_of_lt (Nat.lt_trans hq hlt))

/-! A request changes no coroutine. -/

theorem State.requestStop_heap : (s.requestStop src).heap = s.heap := by
  cases src <;> rfl

theorem State.requestStop_next : (s.requestStop src).next = s.next := by
  cases src <;> rfl

theorem State.Bounded.requestStop (hs : s.Bounded) : (s.requestStop src).Bounded := by
  intro c co hc
  rw [State.requestStop_heap] at hc
  rw [State.requestStop_next]
  exact hs c co hc

theorem State.live_requestStop : (s.requestStop src).Live t d ↔ s.Live t d := by
  rw [State.Live, State.requestStop_heap, State.Live]

theorem sameOutside_requestStop : s.SameOutside (s.requestStop src) t := by
  intro d co hne
  rw [State.requestStop_heap]

/-! A running coroutine goes on. -/

theorem Follows.stay : Follows P conf none conf := .inl ⟨rfl, rfl⟩

theorem label_running (hc : s.heap c = some ⟨pr, .running b, t⟩) :
    s.label P t (.advance c) =
      match P.act b with
      | .stopRequested _ => some (.stopRequested (s.isStopRequested pr.stpSrc))
      | .requestStop _ => some .requestStop
      | _ => none := by
  cases hb : P.act b <;> simp [State.label, hc, hb]

theorem Promise.result_coReturn {v : Option V} (hrv : pr.rv = .monostate)
    (hv : v.isNone = pr.isVoid) :
    ∃ pr', pr.coReturn v = .ok pr' ∧ pr'.continuation = pr.continuation ∧
      pr'.stpSrc = pr.stpSrc ∧ pr'.result = .ok (.returned v) := by
  cases v with
  | none => exact ⟨pr, rfl, rfl, rfl, by simp [result, hrv, ← hv]⟩
  | some v =>
    refine ⟨{ pr with rv := .value v }, ?_, rfl, rfl, by simp [result, ← hv]⟩
    simp [Promise.coReturn, returnValue, hrv, ResultVariant.index]

theorem proceed_spec (hs : s.Bounded) (hc : s.heap c = some ⟨pr, .running b, t⟩)
    (ha : At P s t src conf live) :
    ∃ s', s.proceed P c ⟨pr, .running b, t⟩ b = .ok s' ∧
      Moves P s t conf (s.label P t (.advance c)) s' := by
  obtain ⟨hvoid, ps, ks, ho, rfl, rfl⟩ := ha.shape hc
  rw [label_running hc]
  unfold State.proceed
  cases hb : P.act b with
  | coReturn v =>
    obtain ⟨pr', hco, hcont, hsrc, hres⟩ := Promise.result_coReturn ho.rv (hvoid ▸ P.coReturn hb)
    obtain ⟨s', live', hok, hout, hbd, hnext, hlive, hat⟩ :=
      finalSuspend_spec hs hc ha.mem ho hcont hsrc hres
    refine ⟨s', by simp only [hco]; exact hok, hout, hbd, Nat.le_of_eq hnext,
      fun d hd => .inl ((hlive d).1 ((hat.mem d).2 hd)), src, _, live', hat, .inr ?_⟩
    exact CallStack.step_ret (by simp [Program.direct, hb])
  | throw e =>
    have hcont : (pr.unhandledException e).continuation = pr.continuation := rfl
    obtain ⟨s', live', hok, hout, hbd, hnext, hlive, hat⟩ :=
      finalSuspend_spec hs hc ha.mem ho hcont rfl rfl
    refine ⟨s', hok, hout, hbd, Nat.le_of_eq hnext,
      fun d hd => .inl ((hlive d).1 ((hat.mem d).2 hd)), src, _, live', hat, .inr ?_⟩
    exact CallStack.step_ret (by simp [Program.direct, hb])
  | coAwait d k =>
    obtain ⟨s', live', hok, hout, hbd, hnext, hlive, hat⟩ :=
      coAwait_spec (b := d) hs hc ha.mem ho fun o => (P.coAwait hb o).trans hvoid
    have hfresh : ∀ d, s'.Live t d → s.Live t d ∨ s.next ≤ d := by
      intro d hd
      rcases (hlive d).1 ((hat.mem d).2 hd) with rfl | hd
      · exact .inr (Nat.le_refl _)
      · exact .inl hd
    refine ⟨s', hok, hout, hbd, hnext, hfresh, src, _, live', hat, .inr ?_⟩
    exact CallStack.step_call (by simp [Program.direct, hb])
  | suspend k =>
    exact ⟨_, rfl, sameOutside_set hc rfl, hs.set (hs _ _ hc), Nat.le_refl _, fresh_set hc rfl, src,
      _, _, At.set_suspended ha.mem ho hvoid hb, .stay⟩
  | stopRequested k =>
    refine ⟨_, rfl, sameOutside_set hc rfl, hs.set (hs _ _ hc), Nat.le_refl _, fresh_set hc rfl,
      src, _, _, At.set_running ha.mem ho ((P.stopRequested hb _).trans hvoid), .inr ?_⟩
    exact CallStack.step_vis (by simp [Program.direct, hb]; rfl) rfl
  | requestStop d =>
    have hc' : (s.requestStop pr.stpSrc).heap c = some ⟨pr, .running b, t⟩ := by
      rw [State.requestStop_heap, hc]
    have ho' : Open P (s.requestStop pr.stpSrc) t src c pr ps ks :=
      ho.congr fun _ _ => by rw [State.requestStop_heap]
    have hbd : (s.requestStop pr.stpSrc).Bounded := hs.requestStop
    refine ⟨_, rfl, sameOutside_requestStop.trans (sameOutside_set hc' rfl),
      hbd.set (hbd _ _ hc'), Nat.le_of_eq State.requestStop_next.symm, ?_, src, _, _,
      At.set_running ?_ ho' ((P.requestStop hb).trans hvoid), .inr ?_⟩
    · intro d hd
      rw [State.live_set rfl, State.live_requestStop] at hd
      rcases hd with rfl | hd
      · exact .inl ⟨_, hc, rfl⟩
      · exact .inl hd
    · intro d
      rw [ha.mem d, State.live_requestStop]
    · exact CallStack.step_vis (by simp [Program.direct, hb]; rfl) rfl

end Jkl.Task
