import Jkl.Async.Task

/-! What holds of the coroutines of a task: one of them is active, and each of the others waits
for the next. -/
namespace Jkl.Task

open CallStack (Conf)

variable {σ V E R : Type} {P : Program σ V E R} {s s' : State σ V E R} {t c d : CoroId}
  {co : Coro σ V E R} {src : Option SourceId}

namespace State

/-- A coroutine of the task. -/
def Live (s : State σ V E R) (t c : CoroId) : Prop := ∃ co, s.heap c = some co ∧ co.task = t

def Bounded (s : State σ V E R) : Prop := ∀ c co, s.heap c = some co → c < s.next

/-- The coroutines of other tasks are as they were. -/
def SameOutside (s s' : State σ V E R) (t : CoroId) : Prop :=
  ∀ d co, co.task ≠ t → (s'.heap d = some co ↔ s.heap d = some co)

theorem set_self : (s.set c co).heap c = some co := Function.update_self ..

theorem set_of_ne (h : d ≠ c) : (s.set c co).heap d = s.heap d := Function.update_of_ne h ..

theorem erase_self : (s.erase c).heap c = none := Function.update_self ..

theorem erase_of_ne (h : d ≠ c) : (s.erase c).heap d = s.heap d := Function.update_of_ne h ..

theorem live_set (hco : co.task = t) : (s.set c co).Live t d ↔ d = c ∨ s.Live t d := by
  by_cases h : d = c
  · subst h
    simp [Live, set_self, hco]
  · simp [Live, set_of_ne h, h]

theorem live_erase : (s.erase c).Live t d ↔ d ≠ c ∧ s.Live t d := by
  by_cases h : d = c
  · subst h
    simp [Live, erase_self]
  · simp [Live, erase_of_ne h, h]

theorem SameOutside.refl : SameOutside s s t := fun _ _ _ => Iff.rfl

theorem SameOutside.trans {s'' : State σ V E R} (h : SameOutside s s' t)
    (h' : SameOutside s' s'' t) : SameOutside s s'' t :=
  fun d co hne => (h' d co hne).trans (h d co hne)

theorem SameOutside.set (hc : ∀ co', s.heap c = some co' → co'.task = t) (hco : co.task = t) :
    SameOutside s (s.set c co) t := by
  intro d co' hne
  by_cases h : d = c
  · subst h
    rw [set_self]
    constructor
    · intro he
      exact absurd (Option.some.inj he ▸ hco) hne
    · intro he
      exact absurd (hc co' he) hne
  · rw [set_of_ne h]

theorem SameOutside.erase (hc : ∀ co', s.heap c = some co' → co'.task = t) :
    SameOutside s (s.erase c) t := by
  intro d co' hne
  by_cases h : d = c
  · subst h
    rw [erase_self]
    constructor
    · intro he
      simp at he
    · intro he
      exact absurd (hc co' he) hne
  · rw [erase_of_ne h]

theorem SameOutside.live (h : SameOutside s s' t) {t' : CoroId} (hne : t' ≠ t) :
    s'.Live t' d ↔ s.Live t' d := by
  constructor
  · rintro ⟨co, hco, rfl⟩
    exact ⟨co, (h d co hne).1 hco, rfl⟩
  · rintro ⟨co, hco, rfl⟩
    exact ⟨co, (h d co hne).2 hco, rfl⟩

theorem Bounded.set (h : s.Bounded) (hc : c < s.next) : (s.set c co).Bounded := by
  intro d co' hd
  by_cases hdc : d = c
  · subst hdc
    exact hc
  · rw [set_of_ne hdc] at hd
    exact h d co' hd

theorem Bounded.erase (h : s.Bounded) : (s.erase c).Bounded := by
  intro d co' hd
  by_cases hdc : d = c
  · subst hdc
    rw [erase_self] at hd
    cases hd
  · rw [erase_of_ne hdc] at hd
    exact h d co' hd

end State

/-- The coroutines that wait for `c`, of which `cont` is the continuation, the last one first, and
what they do with its outcome. -/
inductive Waiting (P : Program σ V E R) (s : State σ V E R) (t : CoroId)
    (src : Option SourceId) : (cont : Option CoroId) → (c : CoroId) → List CoroId →
      List (Outcome V E → σ) → Prop where
  | task : Waiting P s t src none t [] []
  | caller {c p pr k ps ks} (hlt : p < c) (hp : s.heap p = some ⟨pr, .awaiting c k, t⟩)
      (hsrc : pr.stpSrc = src) (hrv : pr.rv = .monostate)
      (hvoid : ∀ o, P.isVoid (k o) = pr.isVoid)
      (hup : Waiting P s t src pr.continuation p ps ks) :
      Waiting P s t src (some p) c (p :: ps) (k :: ks)

/-- What a promise and the coroutines that wait are like while the body runs. -/
structure Open (P : Program σ V E R) (s : State σ V E R) (t : CoroId) (src : Option SourceId)
    (c : CoroId) (pr : Promise V E) (ps : List CoroId) (ks : List (Outcome V E → σ)) : Prop where
  stpSrc : pr.stpSrc = src
  rv : pr.rv = .monostate
  waiting : Waiting P s t src pr.continuation c ps ks

/-- What a task is about to do, in direct style, and its coroutines. -/
inductive Active (P : Program σ V E R) (s : State σ V E R) (t : CoroId)
    (src : Option SourceId) : Conf σ (Outcome V E) → List CoroId → Prop where
  | initial {b} (hc : s.heap t = some ⟨.fresh (P.isVoid b), .initial b, t⟩) (hsrc : src = none) :
      Active P s t src (.eval b []) [t]
  | running {c pr b ps ks} (hc : s.heap c = some ⟨pr, .running b, t⟩)
      (hvoid : P.isVoid b = pr.isVoid) (ho : Open P s t src c pr ps ks) :
      Active P s t src (.eval b ks) (c :: ps)
  | suspended {c pr b k ps ks} (hc : s.heap c = some ⟨pr, .suspended k, t⟩)
      (hb : P.act b = .suspend k) (hvoid : P.isVoid b = pr.isVoid)
      (ho : Open P s t src c pr ps ks) : Active P s t src (.eval b ks) (c :: ps)
  | resuming {c pr h k ps ks o pr'} (hc : s.heap c = some ⟨pr, .resuming h k, t⟩)
      (hvoid : ∀ o, P.isVoid (k o) = pr.isVoid) (ho : Open P s t src c pr ps ks) (hlt : c < h)
      (hh : s.heap h = some ⟨pr', .final, t⟩) (hsrc : pr'.stpSrc = src)
      (hres : pr'.result = .ok o) :
      Active P s t src (.back o (k :: ks)) (h :: c :: ps)
  | final {pr o} (hc : s.heap t = some ⟨pr, .final, t⟩) (hsrc : pr.stpSrc = src)
      (hres : pr.result = .ok o) : Active P s t src (.back o []) [t]

/-- The task is there, with these coroutines and no others. -/
structure At (P : Program σ V E R) (s : State σ V E R) (t : CoroId) (src : Option SourceId)
    (conf : Conf σ (Outcome V E)) (live : List CoroId) : Prop where
  active : Active P s t src conf live
  mem : ∀ d, d ∈ live ↔ s.Live t d

structure Inv (P : Program σ V E R) (s : State σ V E R) : Prop where
  bounded : s.Bounded
  task : ∀ {c co}, s.heap c = some co → ∃ src conf live, At P s co.task src conf live

variable {cont : Option CoroId} {ps live : List CoroId} {ks : List (Outcome V E → σ)}
  {pr : Promise V E} {conf : Conf σ (Outcome V E)}

/-! Waiting coroutines. -/

theorem Waiting.lt (h : Waiting P s t src cont c ps ks) : ∀ p ∈ ps, p < c := by
  induction h with
  | task => simp
  | caller hlt hp hsrc hrv hvoid hup ih =>
    intro q hq
    rcases List.mem_cons.1 hq with rfl | hq
    · exact hlt
    · exact Nat.lt_trans (ih q hq) hlt

theorem Waiting.awaiting (h : Waiting P s t src cont c ps ks) :
    ∀ p ∈ ps, ∃ pr h k, s.heap p = some ⟨pr, .awaiting h k, t⟩ ∧ pr.stpSrc = src := by
  induction h with
  | task => simp
  | caller hlt hp hsrc hrv hvoid hup ih =>
    intro q hq
    rcases List.mem_cons.1 hq with rfl | hq
    · exact ⟨_, _, _, hp, hsrc⟩
    · exact ih q hq

theorem Waiting.congr (h : Waiting P s t src cont c ps ks)
    (hs : ∀ p ∈ ps, s'.heap p = s.heap p) : Waiting P s' t src cont c ps ks := by
  induction h with
  | task => exact .task
  | caller hlt hp hsrc hrv hvoid hup ih =>
    obtain ⟨hp', hs⟩ := List.forall_mem_cons.1 hs
    exact .caller hlt (hp'.trans hp) hsrc hrv hvoid (ih hs)

theorem Open.congr (h : Open P s t src c pr ps ks) (hs : ∀ p < c, s'.heap p = s.heap p) :
    Open P s' t src c pr ps ks :=
  ⟨h.stpSrc, h.rv, h.waiting.congr fun p hp => hs p (h.waiting.lt p hp)⟩

theorem Open.set (h : Open P s t src c pr ps ks) : Open P (s.set c co) t src c pr ps ks :=
  h.congr fun _ hp => State.set_of_ne (Nat.ne_of_lt hp)

/-! The rest of the state. -/

theorem Waiting.outside {u : CoroId} (hs : State.SameOutside s s' u) (hne : t ≠ u)
    (h : Waiting P s t src cont c ps ks) : Waiting P s' t src cont c ps ks := by
  induction h with
  | task => exact .task
  | caller hlt hp hsrc hrv hvoid hup ih =>
    exact .caller hlt ((hs _ _ hne).2 hp) hsrc hrv hvoid ih

theorem At.outside {u : CoroId} (hs : State.SameOutside s s' u) (hne : t ≠ u)
    (h : At P s t src conf live) : At P s' t src conf live := by
  have hopen : ∀ {c pr ps ks}, Open P s t src c pr ps ks → Open P s' t src c pr ps ks :=
    fun ho => ⟨ho.stpSrc, ho.rv, ho.waiting.outside hs hne⟩
  refine ⟨?_, fun d => (h.mem d).trans (hs.live hne).symm⟩
  cases h.active with
  | initial hc hsrc => exact .initial ((hs _ _ hne).2 hc) hsrc
  | running hc hvoid ho => exact .running ((hs _ _ hne).2 hc) hvoid (hopen ho)
  | suspended hc hb hvoid ho => exact .suspended ((hs _ _ hne).2 hc) hb hvoid (hopen ho)
  | resuming hc hvoid ho hlt hh hsrc hres =>
    exact .resuming ((hs _ _ hne).2 hc) hvoid (hopen ho) hlt ((hs _ _ hne).2 hh) hsrc hres
  | final hc hsrc hres => exact .final ((hs _ _ hne).2 hc) hsrc hres

/-! The active coroutine, by where it is. -/

theorem Waiting.le (h : Waiting P s t src cont c ps ks) : t ≤ c := by
  induction h with
  | task => exact Nat.le_refl _
  | caller hlt hp hsrc hrv hvoid hup ih => exact Nat.le_of_lt (Nat.lt_of_le_of_lt ih hlt)

/-- What a task is about to do, seen from a coroutine of it that does not wait for another. -/
def Shape (P : Program σ V E R) (s : State σ V E R) (t : CoroId) (src : Option SourceId)
    (conf : Conf σ (Outcome V E)) (live : List CoroId) (c : CoroId) (pr : Promise V E) :
    Point σ V E R → Prop
  | .initial b =>
    c = t ∧ src = none ∧ pr = .fresh (P.isVoid b) ∧ conf = .eval b [] ∧ live = [c]
  | .running b =>
    P.isVoid b = pr.isVoid ∧
      ∃ ps ks, Open P s t src c pr ps ks ∧ conf = .eval b ks ∧ live = c :: ps
  | .awaiting _ _ => True
  | .resuming h k =>
    (∀ o, P.isVoid (k o) = pr.isVoid) ∧ c < h ∧
      ∃ ps ks pr' o, Open P s t src c pr ps ks ∧ s.heap h = some ⟨pr', .final, t⟩ ∧
        pr'.result = .ok o ∧ conf = .back o (k :: ks) ∧ live = h :: c :: ps
  | .suspended k =>
    ∃ b, P.act b = .suspend k ∧ P.isVoid b = pr.isVoid ∧
      ∃ ps ks, Open P s t src c pr ps ks ∧ conf = .eval b ks ∧ live = c :: ps
  | .final => c = t → ∃ o, pr.stpSrc = src ∧ pr.result = .ok o ∧ conf = .back o [] ∧ live = [c]

theorem At.shape {pt : Point σ V E R} (ha : At P s t src conf live)
    (hc : s.heap c = some ⟨pr, pt, t⟩) : Shape P s t src conf live c pr pt := by
  have hmem : c ∈ live := (ha.mem c).2 ⟨_, hc, rfl⟩
  -- A coroutine that waits is nowhere else.
  have hwait : ∀ {c' pr' ps ks}, Open P s t src c' pr' ps ks → c ∈ ps →
      Shape P s t src conf live c pr pt := by
    intro c' pr' ps ks ho hps
    obtain ⟨pr'', h, k, hc', -⟩ := ho.waiting.awaiting c hps
    rw [hc] at hc'
    cases hc'
    trivial
  cases ha.active with
  | initial hc' hsrc =>
    obtain rfl := List.mem_singleton.1 hmem
    rw [hc] at hc'
    cases hc'
    exact ⟨rfl, hsrc, rfl, rfl, rfl⟩
  | running hc' hvoid ho =>
    rcases List.mem_cons.1 hmem with rfl | hps
    · rw [hc] at hc'
      cases hc'
      exact ⟨hvoid, _, _, ho, rfl, rfl⟩
    · exact hwait ho hps
  | suspended hc' hb hvoid ho =>
    rcases List.mem_cons.1 hmem with rfl | hps
    · rw [hc] at hc'
      cases hc'
      exact ⟨_, hb, hvoid, _, _, ho, rfl, rfl⟩
    · exact hwait ho hps
  | resuming hc' hvoid ho hlt hh hsrc hres =>
    rcases List.mem_cons.1 hmem with rfl | hmem
    · rw [hc] at hh
      cases hh
      intro hct
      exact absurd hct (Nat.ne_of_gt (Nat.lt_of_le_of_lt ho.waiting.le hlt))
    · rcases List.mem_cons.1 hmem with rfl | hps
      · rw [hc] at hc'
        cases hc'
        exact ⟨hvoid, hlt, _, _, _, _, ho, hh, hres, rfl, rfl⟩
      · exact hwait ho hps
  | final hc' hsrc hres =>
    obtain rfl := List.mem_singleton.1 hmem
    rw [hc] at hc'
    cases hc'
    exact fun _ => ⟨_, hsrc, hres, rfl, rfl⟩

end Jkl.Task
