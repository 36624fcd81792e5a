import Jkl.Async.TaskSteps

/-! Runs of tasks: every step keeps the invariant. -/
namespace Jkl.Task

open CallStack (Conf)

variable {σ V E R : Type} {P : Program σ V E R} {s s' : State σ V E R} {t u c d : CoroId}
  {co : Coro σ V E R} {src : Option SourceId} {ps live : List CoroId}
  {ks : List (Outcome V E → σ)} {pr : Promise V E} {conf : Conf σ (Outcome V E)}
  {b : σ} {o : Outcome V E} {e : Event σ R} {r : Except Fault (State σ V E R)}

theorem Waiting.mem {cont : Option CoroId} (h : Waiting P s t src cont c ps ks) :
    t ∈ c :: ps := by
  induction h with
  | task => simp
  | caller hlt hp hsrc hrv hvoid hup ih => exact List.mem_cons_of_mem _ ih

/-- The coroutine at the top of the task is one of its coroutines. -/
theorem At.live_self (h : At P s t src conf live) : s.Live t t := by
  rw [← h.mem t]
  cases h.active with
  | initial hc hsrc => simp
  | running hc hvoid ho => exact ho.waiting.mem
  | suspended hc hb hvoid ho => exact ho.waiting.mem
  | resuming hc hvoid ho hlt hh hsrc hres => exact List.mem_cons_of_mem _ ho.waiting.mem
  | final hc hsrc hres => simp

theorem Inv.of_outside (hi : Inv P s) (hb : s'.Bounded) (hs : s.SameOutside s' u)
    (hu : ∀ d, s'.Live u d → ∃ src conf live, At P s' u src conf live) : Inv P s' := by
  refine ⟨hb, ?_⟩
  intro c co hc
  by_cases hne : co.task = u
  · subst hne
    exact hu c ⟨co, hc, rfl⟩
  · obtain ⟨src, conf, live, ha⟩ := hi.task ((hs c co hne).1 hc)
    exact ⟨src, conf, live, ha.outside hs hne⟩

/-- What a step does. -/
structure Effect (P : Program σ V E R) (s : State σ V E R) (e : Event σ R)
    (s' : State σ V E R) : Prop where
  inv : Inv P s'
  next : s.next ≤ s'.next
  /-- A handle is not used again. -/
  gone : ∀ d, s.heap d = none → d < s.next → s'.heap d = none
  task : ∀ {t src conf live}, At P s t src conf live → s'.heap t = none ∨
    ∃ src' conf' live', At P s' t src' conf' live' ∧ Follows P conf (s.label P t e) conf'

theorem gone_of_outside (hs : s.SameOutside s' u)
    (hf : ∀ d, s'.Live u d → s.Live u d ∨ s.next ≤ d) (hd : s.heap d = none) (hlt : d < s.next) :
    s'.heap d = none := by
  rw [Option.eq_none_iff_forall_ne_some]
  intro co hco
  by_cases hne : co.task = u
  · rcases hf d ⟨co, hco, hne⟩ with ⟨co', hco', -⟩ | hle
    · rw [hd] at hco'
      cases hco'
    · exact Nat.not_lt.2 hle hlt
  · rw [hs d co hne, hd] at hco
    cases hco

/-- A step of one task. -/
theorem Effect.of_moves (hi : Inv P s) (ha : At P s u src conf live)
    (hr : ∀ {src conf live}, At P s u src conf live →
      ∃ s', r = .ok s' ∧ Moves P s u conf (s.label P u e) s')
    (hl : ∀ t, t ≠ u → s.label P t e = none) : ∃ s', r = .ok s' ∧ Effect P s e s' := by
  obtain ⟨s', rfl, hm⟩ := hr ha
  obtain ⟨src', conf', live', ha', -⟩ := hm.task
  refine ⟨s', rfl, hi.of_outside hm.bounded hm.outside fun _ _ => ⟨src', conf', live', ha'⟩,
    hm.next, fun d => gone_of_outside hm.outside hm.fresh, ?_⟩
  intro t srct conft livet ht
  by_cases htu : t = u
  · subst htu
    obtain ⟨s'', heq, hm'⟩ := hr ht
    cases heq
    exact .inr hm'.task
  · exact .inr ⟨srct, conft, livet, ht.outside hm.outside htu, .inl ⟨rfl, hl t htu⟩⟩

/-- A step of no task. -/
theorem Effect.of_outside (hi : Inv P s) (hb : s'.Bounded) (hn : s.next ≤ s'.next)
    (hs : s.SameOutside s' u) (hu : ∀ d, s'.Live u d → ∃ src conf live, At P s' u src conf live)
    (hf : ∀ d, s'.Live u d → s.Live u d ∨ s.next ≤ d) (hgone : s.Live u u → s'.heap u = none)
    (hl : ∀ t, s.label P t e = none) : Effect P s e s' := by
  refine ⟨hi.of_outside hb hs hu, hn, fun d => gone_of_outside hs hf, ?_⟩
  intro t src conf live ht
  by_cases htu : t = u
  · subst htu
    exact .inl (hgone ht.live_self)
  · exact .inr ⟨src, conf, live, ht.outside hs htu, .inl ⟨rfl, hl t⟩⟩

theorem label_of_ne (hc : s.heap c = some co) (hne : t ≠ co.task) :
    s.label P t (.advance c) = none ∧ ∀ r, s.label P t (.complete c r) = none := by
  simp [State.label, hc, hne.symm]

theorem effect_create (hi : Inv P s) : Effect P s (.create b) (s.create P b s.next) := by
  have hnone : ∀ d, ¬s.Live s.next d := by
    rintro d ⟨co, hd, htask⟩
    obtain ⟨src, conf, live, ha⟩ := hi.task hd
    obtain ⟨co', hco', -⟩ := ha.live_self
    exact Nat.lt_irrefl _ (htask ▸ hi.bounded _ _ hco')
  apply Effect.of_outside (u := s.next) hi hi.bounded.create (Nat.le_succ _)
    (sameOutside_create hi.bounded)
  · intro _ _
    refine ⟨none, _, _, .initial State.set_self rfl, ?_⟩
    intro d
    have hcr : (s.create P b s.next).Live s.next d ↔ d = s.next ∨ s.Live s.next d :=
      State.live_set rfl
    rw [hcr, List.mem_singleton]
    simp [hnone d]
  · rintro d ⟨co, hd, htask⟩
    by_cases hdn : d = s.next
    · exact .inr (Nat.le_of_eq hdn.symm)
    · exact .inl ⟨co, (State.set_of_ne hdn).symm.trans hd, htask⟩
  · intro hlive
    exact absurd hlive (hnone _)
  · intro t
    rfl

theorem effect_start (hi : Inv P s) (hc : s.heap c = some co) (htask : co.task = c)
    (hinit : co.point.isInitial) :
    ∃ s', s.start c co src = .ok s' ∧ Effect P s (.start c src) s' := by
  obtain ⟨pr, pt, t⟩ := co
  obtain rfl : t = c := htask
  obtain ⟨b, rfl⟩ : ∃ b, pt = .initial b := by
    cases pt with
    | initial b => exact ⟨b, rfl⟩
    | _ => cases hinit
  obtain ⟨src₀, conf, live, ha⟩ := hi.task hc
  apply Effect.of_moves hi ha ?_ fun t' _ => rfl
  intro src₁ conf₁ live₁ ha₁
  obtain ⟨-, rfl, rfl, rfl, rfl⟩ := ha₁.shape hc
  let pr' : Promise V E := { Promise.fresh (P.isVoid b) with stpSrc := src }
  have hc' : (s.set t ⟨pr', .initial b, t⟩).heap t = some ⟨pr', .initial b, t⟩ := State.set_self
  refine ⟨(s.set t ⟨pr', .initial b, t⟩).set t ⟨pr', .running b, t⟩, ?_, ?_, ?_, Nat.le_refl _, ?_,
    ?_⟩
  · simp only [State.start, Promise.stopPossible, Promise.fresh]
    change (s.set t ⟨pr', .initial b, t⟩).resume t = _
    simp only [State.resume, hc']
  · exact (sameOutside_set hc rfl).trans (sameOutside_set hc' rfl)
  · exact (hi.bounded.set (hi.bounded _ _ hc)).set (hi.bounded _ _ hc)
  · intro d hd
    rw [State.live_set rfl, State.live_set rfl] at hd
    rcases hd with rfl | rfl | hd
    · exact .inl ⟨_, hc, rfl⟩
    · exact .inl ⟨_, hc, rfl⟩
    · exact .inl hd
  · refine ⟨src, .eval b [], [t], ⟨.running State.set_self rfl ⟨rfl, rfl, .task⟩, ?_⟩, .stay⟩
    intro d
    rw [State.live_set rfl, State.live_set rfl, ← ha₁.mem d, List.mem_singleton]
    tauto

theorem effect_running (hi : Inv P s) (hc : s.heap c = some ⟨pr, .running b, u⟩) :
    ∃ s', s.proceed P c ⟨pr, .running b, u⟩ b = .ok s' ∧ Effect P s (.advance c) s' := by
  obtain ⟨src, conf, live, ha⟩ := hi.task hc
  exact Effect.of_moves hi ha (proceed_spec hi.bounded hc) fun t hne => (label_of_ne hc hne).1

theorem effect_resuming {h : CoroId} {k : Outcome V E → σ} (hi : Inv P s)
    (hc : s.heap c = some ⟨pr, .resuming h k, u⟩) :
    ∃ s', s.awaitResume h c ⟨pr, .resuming h k, u⟩ k = .ok s' ∧ Effect P s (.advance c) s' := by
  obtain ⟨src, conf, live, ha⟩ := hi.task hc
  apply Effect.of_moves hi ha ?_ fun t hne => (label_of_ne hc hne).1
  intro src conf live ha
  obtain ⟨hvoid, hlt, ps, ks, pr', o, ho, hh, hres, rfl, rfl⟩ := ha.shape hc
  obtain ⟨s', live', hok, hout, hbd, hnext, hlive, hat⟩ :=
    awaitResume_spec hi.bounded hc ha.mem ho hvoid hlt hh hres
  refine ⟨s', hok, hout, hbd, Nat.le_of_eq hnext,
    fun d hd => .inl (hlive d ((hat.mem d).2 hd)), src, _, live', hat, .inr ?_⟩
  have hlabel : s.label P u (.advance c) = none := by
    simp only [State.label, hc, if_true]
  rw [hlabel]
  exact CallStack.step_back

theorem effect_complete {k : R → σ} {v : R} (hi : Inv P s)
    (hc : s.heap c = some ⟨pr, .suspended k, u⟩) :
    ∃ s', .ok (s.set c ⟨pr, .running (k v), u⟩) = (.ok s' : Except Fault _) ∧
      Effect P s (.complete c v) s' := by
  obtain ⟨src, conf, live, ha⟩ := hi.task hc
  apply Effect.of_moves hi ha ?_ fun t hne => (label_of_ne hc hne).2 v
  intro src conf live ha
  obtain ⟨b, hb, hvoid, ps, ks, ho, rfl, rfl⟩ := ha.shape hc
  refine ⟨_, rfl, sameOutside_set hc rfl, hi.bounded.set (hi.bounded _ _ hc), Nat.le_refl _,
    fresh_set hc rfl, src, _, _, At.set_running ha.mem ho ((P.suspend hb v).trans hvoid), .inr ?_⟩
  have hlabel : s.label P u (.complete c v) = some (.resumed v) := by
    simp only [State.label, hc, if_true]
  rw [hlabel]
  exact CallStack.step_vis (by simp [Program.direct, hb]; rfl) rfl

theorem effect_requestStop {src : SourceId} (hi : Inv P s) :
    Effect P s (.requestStop src) (s.requestStop (some src)) := by
  have hne : ∀ t : CoroId, t ≠ t + 1 := fun t => Nat.ne_of_lt (Nat.lt_succ_self t)
  refine ⟨⟨hi.bounded.requestStop, ?_⟩, Nat.le_refl _, fun d hd _ => hd, ?_⟩
  · intro c co hc
    obtain ⟨src, conf, live, ha⟩ := hi.task hc
    exact ⟨src, conf, live, ha.outside sameOutside_requestStop (hne _)⟩
  · intro t src' conf live ha
    exact .inr ⟨src', conf, live, ha.outside sameOutside_requestStop (hne _), .stay⟩

theorem effect_drop (hi : Inv P s) (hc : s.heap c = some co) (htask : co.task = c)
    (hpt : co.point.isInitial ∨ co.point.isFinal) :
    ∃ s', s.destroy c = .ok s' ∧ Effect P s (.drop c) s' := by
  obtain ⟨pr, pt, t⟩ := co
  obtain rfl : t = c := htask
  obtain ⟨src, conf, live, ha⟩ := hi.task hc
  have hlive : live = [t] ∧ s.destroy t = .ok (s.erase t) := by
    cases pt with
    | initial b =>
      obtain ⟨-, -, -, -, hlive⟩ := ha.shape hc
      exact ⟨hlive, by simp [State.destroy, hc]⟩
    | final =>
      obtain ⟨o, -, -, -, hlive⟩ := ha.shape hc rfl
      exact ⟨hlive, by simp [State.destroy, hc]⟩
    | _ => rcases hpt with hpt | hpt <;> cases hpt
  obtain ⟨rfl, hok⟩ := hlive
  refine ⟨_, hok, Effect.of_outside (u := t) hi hi.bounded.erase (Nat.le_refl _) ?_ ?_ ?_ ?_ ?_⟩
  · apply State.SameOutside.erase
    intro co hco
    rw [hc] at hco
    cases hco
    rfl
  · intro d hd
    rw [State.live_erase, ← ha.mem d, List.mem_singleton] at hd
    exact absurd hd.2 hd.1
  · intro d hd
    exact .inl (State.live_erase.1 hd).2
  · intro _
    exact State.erase_self
  · intro _
    rfl

/-- No step fails, and every step keeps the invariant. -/
theorem effect_of_step (hi : Inv P s) (h : s.step P e = some r) :
    ∃ s', r = .ok s' ∧ Effect P s e s' := by
  cases e with
  | create b =>
    cases h
    exact ⟨_, rfl, effect_create hi⟩
  | start c src =>
    simp only [State.step] at h
    cases hc : s.heap c with
    | none => simp [hc] at h
    | some co =>
      simp only [hc] at h
      split_ifs at h with hcond
      cases h
      exact effect_start hi hc hcond.1 hcond.2
  | advance c =>
    simp only [State.step] at h
    cases hc : s.heap c with
    | none => simp [hc] at h
    | some co =>
      simp only [hc] at h
      obtain ⟨pr, pt, t⟩ := co
      cases pt with
      | running b =>
        cases h
        exact effect_running hi hc
      | resuming d k =>
        cases h
        exact effect_resuming hi hc
      | _ => cases h
  | complete c v =>
    simp only [State.step] at h
    cases hc : s.heap c with
    | none => simp [hc] at h
    | some co =>
      simp only [hc] at h
      obtain ⟨pr, pt, t⟩ := co
      cases pt with
      | suspended k =>
        cases h
        exact effect_complete hi hc
      | _ => cases h
  | requestStop src =>
    cases h
    exact ⟨_, rfl, effect_requestStop hi⟩
  | drop c =>
    simp only [State.step] at h
    cases hc : s.heap c with
    | none => simp [hc] at h
    | some co =>
      simp only [hc] at h
      split_ifs at h with hcond
      cases h
      exact effect_drop hi hc hcond.1 hcond.2

theorem effect_of_next? (hi : Inv P s) (h : s.next? P e = some s') : Effect P s e s' := by
  obtain ⟨r, hr, hok⟩ := Option.bind_eq_some_iff.1 h
  obtain ⟨s'', rfl, heff⟩ := effect_of_step hi hr
  cases hok
  exact heff

theorem Inv.init : Inv P State.init := by
  constructor
  · intro c co hc
    cases hc
  · intro c co hc
    cases hc

theorem Reachable.inv (h : Reachable P s) : Inv P s := by
  obtain ⟨es, hrun⟩ := h
  exact Steps.invariant_of_step (fun _ _ _ hi ht => (effect_of_next? hi ht).inv) Inv.init hrun

end Jkl.Task
