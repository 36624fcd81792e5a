import Jkl.Async.ResPoolOwners

/-! The waiter queue of a `res_pool`: slots, ids, waiters and their completions fit together in
every reachable state, and resources go to the waiters in the order of the queue. -/
namespace Jkl.Async.ResPool

variable {ι : Type*} {hasRes : Bool}

namespace Pool

/-- The waiters in the queue, front first. -/
def live (q : List (ℕ × Option ι)) : List ι := q.filterMap Prod.snd

theorem mem_live {q : List (ℕ × Option ι)} {w : ι} : w ∈ live q ↔ ∃ a, (a, some w) ∈ q := by
  simp [live]

@[simp] theorem live_append (q : List (ℕ × Option ι)) (a : ℕ) (w : ι) :
    live (q ++ [(a, some w)]) = live q ++ [w] := by
  simp [live]

theorem popLive_eq_none {q : List (ℕ × Option ι)} (h : popLive q = none) : live q = [] := by
  induction q with
  | nil => rfl
  | cons e q ih =>
    obtain ⟨a, _ | w⟩ := e
    · simpa [live] using ih h
    · simp [popLive] at h

theorem popLive_eq_some {q r : List (ℕ × Option ι)} {w : ι} (h : popLive q = some (w, r)) :
    ∃ nulls a, q = nulls ++ (a, some w) :: r ∧ ∀ e ∈ nulls, e.2 = none := by
  induction q with
  | nil => simp [popLive] at h
  | cons e q ih =>
    obtain ⟨a, _ | v⟩ := e
    · obtain ⟨nulls, b, hq, hn⟩ := ih h
      refine ⟨(a, none) :: nulls, b, by simp [hq], ?_⟩
      simpa using hn
    · obtain ⟨rfl, rfl⟩ : v = w ∧ q = r := by simpa [popLive] using h
      exact ⟨[], a, rfl, by simp⟩

theorem live_pop {nulls r : List (ℕ × Option ι)} {a : ℕ} {w : ι}
    (hn : ∀ e ∈ nulls, e.2 = none) : live (nulls ++ (a, some w) :: r) = w :: live r := by
  have hnil : live nulls = [] := List.filterMap_eq_nil_iff.2 hn
  simp only [live, List.filterMap_append, List.filterMap_cons] at hnil ⊢
  rw [hnil, List.nil_append]

theorem live_setNull_sublist (a : ℕ) (q : List (ℕ × Option ι)) :
    (live (setNull a q)).Sublist (live q) := by
  induction q with
  | nil => exact List.Sublist.refl _
  | cons e q ih =>
    obtain ⟨b, _ | w⟩ := e
    · by_cases hb : b = a <;> simpa [live, setNull, hb] using ih
    · by_cases hb : b = a
      · simpa [live, setNull, hb] using ih.cons w
      · simpa [live, setNull, hb] using ih

theorem mem_setNull {a b : ℕ} {q : List (ℕ × Option ι)} {w : ι} :
    (b, some w) ∈ setNull a q ↔ b ≠ a ∧ (b, some w) ∈ q := by
  simp only [setNull, List.mem_map, Prod.exists]
  constructor
  · rintro ⟨c, x, hmem, heq⟩
    split at heq
    · simp at heq
    · next hc =>
      obtain ⟨rfl, rfl⟩ := Prod.mk.inj heq
      exact ⟨hc, hmem⟩
  · rintro ⟨hb, hmem⟩
    exact ⟨b, some w, hmem, if_neg hb⟩

@[simp] theorem map_fst_setNull (a : ℕ) (q : List (ℕ × Option ι)) :
    (setNull a q).map Prod.fst = q.map Prod.fst := by
  simp only [setNull, List.map_map]
  refine List.map_congr_left fun e _ => ?_
  simp only [Function.comp]
  split <;> rfl

end Pool

open Pool

/-- How the queue, the set of ids and the waiters fit together; `enq` and `srv` list who was
queued and who was chosen, in order. -/
structure Queued (p : Pool ι) (ws : ι → Waiter) (enq srv : List ι) : Prop where
  addrs : (p.awaiterQueue.map Prod.fst).Nodup
  slots : ∀ a w, (a, some w) ∈ p.awaiterQueue → ∃ n, (ws w).id = some (n, a)
  ids : ∀ id, id ∈ p.awaiters ↔ ∃ w, w ∈ live p.awaiterQueue ∧ (ws w).id = some id
  seqs : ∀ w n a, (ws w).id = some (n, a) → n ≤ p.idSeq
  inj : ∀ v w n a b, (ws v).id = some (n, a) → (ws w).id = some (n, b) → v = w
  begun : ∀ w, (ws w).begun = false → (ws w).id = none
  armed : ∀ w, (ws w).timer = true ∨ (ws w).stopCb = true → (ws w).id ≠ none
  once : ∀ w, (ws w).completions.length ≤ 1
  idle : ∀ w, (ws w).id = none → (ws w).completions = []
  waits : ∀ w, w ∈ live p.awaiterQueue ↔ (ws w).id ≠ none ∧ (ws w).completions = []
  queued : ∀ w, w ∈ enq ↔ (ws w).id ≠ none
  nodup : enq.Nodup
  chosen : ∀ w, w ∈ srv ↔ .handedOver ∈ (ws w).completions
  order : (srv ++ live p.awaiterQueue).Sublist enq

theorem queued_init (cap : ℕ) : Queued (Pool.init cap : Pool ι) (fun _ => .init) [] [] := by
  constructor <;> simp [Pool.init, Waiter.init, live]

variable {p q : Pool ι} {ws : ι → Waiter} {enq srv : List ι} {i : ι}

theorem Queued.same (h : Queued p ws enq srv) (hq : SameQueue p q) : Queued q ws enq srv := by
  obtain ⟨haq, haw, hseq⟩ := hq
  constructor
  · exact haq ▸ h.addrs
  · exact haq ▸ h.slots
  · rw [haq, haw]
    exact h.ids
  · exact hseq ▸ h.seqs
  · exact h.inj
  · exact h.begun
  · exact h.armed
  · exact h.once
  · exact h.idle
  · exact haq ▸ h.waits
  · exact h.queued
  · exact h.nodup
  · exact h.chosen
  · exact haq ▸ h.order

/-- A slot of the queue belongs to the waiter whose id has its address. -/
theorem Queued.slot_unique (h : Queued p ws enq srv) {a b : ℕ} {v w : ι} {n : ℕ}
    (hv : (a, some v) ∈ p.awaiterQueue) (hw : (ws w).id = some (n, b))
    (hlive : w ∈ live p.awaiterQueue) : a = b ↔ v = w := by
  obtain ⟨c, hc⟩ := mem_live.1 hlive
  obtain ⟨m, hm⟩ := h.slots c w hc
  obtain ⟨rfl, rfl⟩ : m = n ∧ c = b := by simpa [hm] using hw
  constructor
  · rintro rfl
    have := List.inj_on_of_nodup_map h.addrs hv hc rfl
    simpa using this
  · rintro rfl
    obtain ⟨k, hk⟩ := h.slots a v hv
    have : k = m ∧ a = c := by simpa [hm] using hk.symm
    exact this.2

section Waiter

variable [DecidableEq ι]

/-- The waiter keeps its id and its completions. -/
theorem Queued.update (h : Queued p ws enq srv) {w : Waiter} (hid : w.id = (ws i).id)
    (hc : w.completions = (ws i).completions) (hb : w.begun = false → (ws i).id = none)
    (ha : w.timer = true ∨ w.stopCb = true → (ws i).id ≠ none) :
    Queued p (Function.update ws i w) enq srv := by
  have hids (v : ι) : (Function.update ws i w v).id = (ws v).id := by
    by_cases hv : v = i
    · rw [hv, Function.update_self, hid]
    · rw [Function.update_of_ne hv]
  have hcs (v : ι) : (Function.update ws i w v).completions = (ws v).completions := by
    by_cases hv : v = i
    · rw [hv, Function.update_self, hc]
    · rw [Function.update_of_ne hv]
  constructor
  case begun =>
    intro v
    rw [hids]
    by_cases hv : v = i
    · rw [hv, Function.update_self]
      exact hb
    · rw [Function.update_of_ne hv]
      exact h.begun v
  case armed =>
    intro v
    rw [hids]
    by_cases hv : v = i
    · rw [hv, Function.update_self]
      exact ha
    · rw [Function.update_of_ne hv]
      exact h.armed v
  case addrs => exact h.addrs
  case slots => simpa only [hids] using h.slots
  case ids => simpa only [hids] using h.ids
  case seqs => simpa only [hids] using h.seqs
  case inj => simpa only [hids] using h.inj
  case once => simpa only [hcs] using h.once
  case idle => simpa only [hids, hcs] using h.idle
  case waits => simpa only [hids, hcs] using h.waits
  case queued => simpa only [hids] using h.queued
  case nodup => exact h.nodup
  case chosen => simpa only [hcs] using h.chosen
  case order => exact h.order

/-- `add_awaiter` for a waiter that has not been awaited before. -/
theorem Queued.enqueue (h : Queued p ws enq srv) {addr : ℕ} {timer stopCb : Bool}
    (hb : (ws i).begun = false) (haddr : addr ∉ p.awaiterQueue.map Prod.fst) :
    Queued (p.addAwaiter i addr).1
      (Function.update ws i { ws i with
        begun := true, id := some (p.addAwaiter i addr).2, timer := timer, stopCb := stopCb })
      (enq ++ [i]) srv := by
  have hnone : (ws i).id = none := h.begun i hb
  have hc : (ws i).completions = [] := h.idle i hnone
  have hfresh : i ∉ live p.awaiterQueue := fun hl => ((h.waits i).1 hl).1 hnone
  have hne {v : ι} (hv : v ∈ live p.awaiterQueue) : v ≠ i := fun he => hfresh (he ▸ hv)
  have hmem (id : Id) : id ∈ (p.addAwaiter i addr).1.awaiters ↔
      id = (p.idSeq + 1, addr) ∨ id ∈ p.awaiters := Finset.mem_insert
  have hlive : live (p.addAwaiter i addr).1.awaiterQueue = live p.awaiterQueue ++ [i] :=
    live_append _ _ _
  constructor
  case addrs =>
    show ((p.awaiterQueue ++ [(addr, some i)]).map Prod.fst).Nodup
    rw [List.map_append]
    exact h.addrs.append (by simp) (by simpa using haddr)
  case slots =>
    intro a w hw
    rcases List.mem_append.1 hw with hw | hw
    · rw [Function.update_of_ne (hne (mem_live.2 ⟨a, hw⟩))]
      exact h.slots a w hw
    · obtain ⟨rfl, rfl⟩ : a = addr ∧ w = i := by simpa using hw
      exact ⟨_, by rw [Function.update_self]; rfl⟩
  case ids =>
    intro id
    rw [hmem, hlive]
    constructor
    · rintro (rfl | hid)
      · exact ⟨i, by simp, by rw [Function.update_self]; rfl⟩
      · obtain ⟨w, hw, hwid⟩ := (h.ids id).1 hid
        exact ⟨w, by simp [hw], by rw [Function.update_of_ne (hne hw), hwid]⟩
    · rintro ⟨w, hw, hwid⟩
      rcases List.mem_append.1 hw with hw | hw
      · rw [Function.update_of_ne (hne hw)] at hwid
        exact .inr ((h.ids id).2 ⟨w, hw, hwid⟩)
      · rw [List.mem_singleton.1 hw, Function.update_self] at hwid
        exact .inl (Option.some.inj hwid).symm
  case seqs =>
    intro w n a hw
    show n ≤ p.idSeq + 1
    by_cases hv : w = i
    · rw [hv, Function.update_self] at hw
      have : p.idSeq + 1 = n ∧ addr = a := by simpa [addAwaiter] using hw
      omega
    · rw [Function.update_of_ne hv] at hw
      have := h.seqs w n a hw
      omega
  case inj =>
    intro v w n a b hv hw
    have hold {u : ι} {c : ℕ} (hu : u ≠ i) (huid : (Function.update ws i { ws i with
        begun := true, id := some (p.addAwaiter i addr).2, timer := timer,
        stopCb := stopCb } u).id = some (p.idSeq + 1, c)) : False := by
      rw [Function.update_of_ne hu] at huid
      have := h.seqs u _ _ huid
      omega
    by_cases hvi : v = i
    · by_cases hwi : w = i
      · rw [hvi, hwi]
      · rw [hvi, Function.update_self] at hv
        obtain ⟨rfl, _⟩ : p.idSeq + 1 = n ∧ addr = a := by simpa [addAwaiter] using hv
        exact (hold hwi hw).elim
    · by_cases hwi : w = i
      · rw [hwi, Function.update_self] at hw
        obtain ⟨rfl, _⟩ : p.idSeq + 1 = n ∧ addr = b := by simpa [addAwaiter] using hw
        exact (hold hvi hv).elim
      · rw [Function.update_of_ne hvi] at hv
        rw [Function.update_of_ne hwi] at hw
        exact h.inj v w n a b hv hw
  case begun =>
    intro v hv
    by_cases hvi : v = i
    · simp [hvi] at hv
    · rw [Function.update_of_ne hvi] at hv ⊢
      exact h.begun v hv
  case armed =>
    intro v hv
    by_cases hvi : v = i
    · simp [hvi]
    · rw [Function.update_of_ne hvi] at hv ⊢
      exact h.armed v hv
  case once =>
    intro v
    by_cases hvi : v = i
    · simp [hvi, hc]
    · rw [Function.update_of_ne hvi]
      exact h.once v
  case idle =>
    intro v
    by_cases hvi : v = i
    · simp [hvi]
    · rw [Function.update_of_ne hvi]
      exact h.idle v
  case waits =>
    intro v
    rw [hlive]
    by_cases hvi : v = i
    · simp [hvi, hc]
    · rw [Function.update_of_ne hvi]
      simpa [hvi] using h.waits v
  case queued =>
    intro v
    by_cases hvi : v = i
    · simp [hvi]
    · rw [Function.update_of_ne hvi]
      simpa [hvi] using h.queued v
  case nodup =>
    have : i ∉ enq := fun he => (h.queued i).1 he hnone
    exact h.nodup.append (by simp) (by simpa using this)
  case chosen =>
    intro v
    by_cases hvi : v = i
    · have := h.chosen i
      simpa [hvi, hc] using this
    · rw [Function.update_of_ne hvi]
      exact h.chosen v
  case order =>
    rw [hlive, ← List.append_assoc]
    exact h.order.append_right [i]

/-- Waiter `i` leaves the queue and the set of ids, and is completed. -/
theorem Queued.leave (h : Queued p ws enq srv) (hi : i ∈ live p.awaiterQueue)
    (haddrs : (q.awaiterQueue.map Prod.fst).Nodup)
    (hslots : ∀ a w, (a, some w) ∈ q.awaiterQueue ↔ w ≠ i ∧ (a, some w) ∈ p.awaiterQueue)
    (hids : q.awaiters = p.awaiters.erase (ws i).getId) (hseq : q.idSeq = p.idSeq)
    {w : Waiter} (hid : w.id = (ws i).id) (hb : w.begun = (ws i).begun) {c : Cause} (hc : w.completions = [c])
    {srv' : List ι} (hsrv : ∀ v, v ∈ srv' ↔ v = i ∧ c = .handedOver ∨ v ∈ srv)
    (horder : (srv' ++ live q.awaiterQueue).Sublist enq) :
    Queued q (Function.update ws i w) enq srv' := by
  obtain ⟨hsome, hnil⟩ := (h.waits i).1 hi
  have hidw (v : ι) : (Function.update ws i w v).id = (ws v).id := by
    by_cases hv : v = i
    · rw [hv, Function.update_self, hid]
    · rw [Function.update_of_ne hv]
  have hlive (v : ι) : v ∈ live q.awaiterQueue ↔ v ≠ i ∧ v ∈ live p.awaiterQueue := by
    simp [mem_live, hslots]
  constructor
  case addrs => exact haddrs
  case slots =>
    intro a v hv
    rw [hidw]
    exact h.slots a v ((hslots a v).1 hv).2
  case ids =>
    intro id
    rw [hids, Finset.mem_erase, h.ids]
    constructor
    · rintro ⟨hne, v, hv, hvid⟩
      have hvi : v ≠ i := by
        rintro rfl
        exact hne (by simp [Waiter.getId, hvid])
      exact ⟨v, (hlive v).2 ⟨hvi, hv⟩, by rw [hidw, hvid]⟩
    · rintro ⟨v, hv, hvid⟩
      rw [hidw] at hvid
      obtain ⟨hvi, hv⟩ := (hlive v).1 hv
      refine ⟨?_, v, hv, hvid⟩
      rintro rfl
      obtain ⟨⟨n, a⟩, hia⟩ := Option.ne_none_iff_exists'.1 hsome
      have hva : (ws v).id = some (n, a) := by rw [hvid, Waiter.getId, hia]; rfl
      exact hvi (h.inj v i n a a hva hia)
  case seqs => simpa only [hidw, hseq] using h.seqs
  case inj => simpa only [hidw] using h.inj
  case begun =>
    intro v hv
    rw [hidw]
    by_cases hvi : v = i
    · rw [hvi, Function.update_self, hb] at hv
      exact hvi ▸ h.begun i hv
    · rw [Function.update_of_ne hvi] at hv
      exact h.begun v hv
  case armed =>
    intro v hv
    rw [hidw]
    by_cases hvi : v = i
    · exact hvi ▸ hsome
    · rw [Function.update_of_ne hvi] at hv
      exact h.armed v hv
  case once =>
    intro v
    by_cases hvi : v = i
    · simp [hvi, hc]
    · rw [Function.update_of_ne hvi]
      exact h.once v
  case idle =>
    intro v hv
    rw [hidw] at hv
    have hvi : v ≠ i := fun he => hsome (he ▸ hv)
    rw [Function.update_of_ne hvi]
    exact h.idle v hv
  case waits =>
    intro v
    rw [hlive, hidw]
    by_cases hvi : v = i
    · simp [hvi, hc]
    · rw [Function.update_of_ne hvi]
      simpa [hvi] using h.waits v
  case queued => simpa only [hidw] using h.queued
  case nodup => exact h.nodup
  case chosen =>
    intro v
    rw [hsrv]
    by_cases hvi : v = i
    · have := h.chosen i
      simp only [hnil, List.not_mem_nil, iff_false] at this
      simp [hvi, hc, this, eq_comm]
    · rw [Function.update_of_ne hvi]
      simpa [hvi] using h.chosen v
  case order => exact horder

/-- The front waiter is chosen by `recycle`. -/
theorem Queued.serve (h : Queued p ws enq srv) {r : List (ℕ × Option ι)}
    (hpop : popLive p.awaiterQueue = some (i, r)) :
    Queued { p with awaiterQueue := r, awaiters := p.awaiters.erase (ws i).getId }
      (Function.update ws i
        { ws i with completions := (ws i).completions ++ [.handedOver] })
      enq (srv ++ [i]) := by
  obtain ⟨nulls, a, hq, hn⟩ := popLive_eq_some hpop
  have hi : i ∈ live p.awaiterQueue := mem_live.2 ⟨a, by simp [hq]⟩
  have hnil : (ws i).completions = [] := ((h.waits i).1 hi).2
  have haddrs := h.addrs
  rw [hq, List.map_append, List.map_cons] at haddrs
  have hr : (a :: r.map Prod.fst).Nodup := haddrs.of_append_right
  refine h.leave
    (q := { p with awaiterQueue := r, awaiters := p.awaiters.erase (ws i).getId })
    (w := { ws i with completions := (ws i).completions ++ [.handedOver] })
    hi (List.nodup_cons.1 hr).2 ?_ rfl rfl rfl rfl (by rw [hnil]; rfl)
    (fun v => by simp [or_comm]) ?_
  · intro b w
    rw [hq, List.mem_append, List.mem_cons]
    constructor
    · intro hw
      have hb : b ≠ a := fun he => (List.nodup_cons.1 hr).1 (List.mem_map.2 ⟨_, hw, he⟩)
      refine ⟨?_, .inr (.inr hw)⟩
      rintro rfl
      obtain ⟨n, hid⟩ := h.slots a w (by simp [hq])
      obtain ⟨m, hid'⟩ := h.slots b w (by simp [hq, hw])
      have : n = m ∧ a = b := by simpa [hid] using hid'
      exact hb this.2.symm
    · rintro ⟨hne, hw | hw | hw⟩
      · simpa using hn _ hw
      · exact absurd (Option.some.inj (Prod.mk.inj hw).2) hne
      · exact hw
  · have horder := h.order
    rw [hq, live_pop hn] at horder
    simpa using horder

/-- A waiter whose id is still there gives up. -/
theorem Queued.remove (h : Queued p ws enq srv) (hid : (ws i).getId ∈ p.awaiters)
    (hi : (ws i).id ≠ none) {c : Cause} (hc : c ≠ .handedOver) :
    Queued { p with
        awaiters := p.awaiters.erase (ws i).getId,
        awaiterQueue := setNull (ws i).getId.2 p.awaiterQueue }
      (Function.update ws i
        { ws i with stopCb := false, completions := (ws i).completions ++ [c] }) enq srv := by
  obtain ⟨⟨n, a⟩, hia⟩ := Option.ne_none_iff_exists'.1 hi
  have hget : (ws i).getId = (n, a) := by rw [Waiter.getId, hia]; rfl
  have hlive : i ∈ live p.awaiterQueue := by
    obtain ⟨v, hv, hvid⟩ := (h.ids _).1 hid
    rw [hget] at hvid
    exact h.inj v i n a a hvid hia ▸ hv
  have hnil : (ws i).completions = [] := ((h.waits i).1 hlive).2
  refine h.leave
    (q := { p with
      awaiters := p.awaiters.erase (ws i).getId
      awaiterQueue := setNull (ws i).getId.2 p.awaiterQueue })
    (w := { ws i with stopCb := false, completions := (ws i).completions ++ [c] })
    hlive (by simpa using h.addrs) ?_ rfl rfl rfl rfl (by rw [hnil]; rfl)
    (fun v => by simp [hc]) ?_
  · intro b v
    rw [hget]
    rw [mem_setNull]
    refine and_congr_left fun hmem => ?_
    exact not_congr (h.slot_unique hmem hia hlive)
  · exact (List.Sublist.append_left (live_setNull_sublist _ _) srv).trans h.order

end Waiter

/-- The invariant of a pool with its users. -/
structure Orderly (hasRes : Bool) (s : State ι) : Prop where
  conserved : Conserved hasRes s
  queued : Queued s.pool s.waiters s.enqueued s.served
  busy : s.pool.awaiterQueue ≠ [] → 0 < s.pool.inUse hasRes
  cap : 0 < s.pool.cap

theorem orderly_init {cap : ℕ} (hcap : 0 < cap) : Orderly hasRes (State.init cap : State ι) :=
  ⟨conserved_init cap, queued_init cap, by simp [State.init, Pool.init], hcap⟩

section Steps

variable {opts : ι → Options} {s t : State ι} {i : ι}

theorem Pool.SameQueue.rfl {p : Pool ι} : SameQueue p p := ⟨by rfl, by rfl, by rfl⟩

/-- A step that leaves the queue and the waiters alone. -/
theorem Orderly.same (hs : Orderly hasRes s) (ht : Conserved hasRes t)
    (hq : SameQueue s.pool t.pool) (hw : t.waiters = s.waiters)
    (he : t.enqueued = s.enqueued) (hsrv : t.served = s.served)
    (hinUse : 0 < s.pool.inUse hasRes → 0 < t.pool.inUse hasRes) (hcap : 0 < t.pool.cap) :
    Orderly hasRes t := by
  refine ⟨ht, ?_, fun hne => hinUse (hs.busy ?_), hcap⟩
  · rw [hw, he, hsrv]
    exact hs.queued.same hq
  · exact hq.awaiterQueue ▸ hne

theorem orderly_tryAcquire (hs : Orderly hasRes s) :
    SameQueue s.pool (s.pool.tryAcquire hasRes).1 ∧
      (0 < s.pool.inUse hasRes → 0 < (s.pool.tryAcquire hasRes).1.inUse hasRes) ∧
      0 < (s.pool.tryAcquire hasRes).1.cap := by
  rcases Pool.tryAcquire_spec hs.conserved.sane with ⟨heq, _⟩ | ⟨_, hacq⟩
  · rw [heq]
    exact ⟨.rfl, id, hs.cap⟩
  · exact ⟨hacq.queue, fun _ => hacq.inUse_pos, hacq.cap ▸ hs.cap⟩

theorem reserve_keeps (hasRes : Bool) (n : ℕ) (p : Pool ι) :
    SameQueue p (p.reserve hasRes n) ∧ (p.reserve hasRes n).inUse hasRes = p.inUse hasRes ∧
      (0 < p.cap → 0 < (p.reserve hasRes n).cap) := by
  unfold Pool.reserve
  split
  · next hn => exact ⟨⟨rfl, rfl, rfl⟩, rfl, fun _ => Nat.zero_lt_of_lt hn⟩
  · exact ⟨.rfl, rfl, id⟩

variable [DecidableEq ι]

theorem Orderly.acquire {o : Options} {addr : ℕ} {stopRequested : Bool}
    (hs : Orderly hasRes s) (hb : (s.waiters i).begun = false) (ht : Conserved hasRes t)
    (h : s.acquire hasRes o i addr stopRequested = some t) : Orderly hasRes t := by
  have hbegin : Queued s.pool (Function.update s.waiters i { s.waiters i with begun := true })
      s.enqueued s.served :=
    hs.queued.update rfl rfl (by simp) (hs.queued.armed i)
  unfold State.acquire at h
  split at h
  · cases h
    exact ⟨ht, hbegin, hs.busy, hs.cap⟩
  · rcases Pool.tryAcquire_spec hs.conserved.sane with ⟨heq, hfull⟩ | ⟨_, hacq⟩
    · simp only [heq] at h
      split at h
      · next hv => simp [Holder.valid, Holder.empty] at hv
      · split at h
        · cases h
        · next haddr =>
          cases h
          refine ⟨ht, hs.queued.enqueue hb haddr, fun _ => ?_, hs.cap⟩
          show 0 < s.pool.inUse hasRes
          have := hs.cap
          omega
    · simp only [hacq.valid, if_true] at h
      cases h
      exact ⟨ht, hbegin.same hacq.queue, fun _ => hacq.inUse_pos, hacq.cap ▸ hs.cap⟩

theorem Orderly.recycleLocked {it : ℕ} (hs : Orderly hasRes s)
    (ht : Conserved hasRes (s.recycleLocked hasRes it)) :
    Orderly hasRes (s.recycleLocked hasRes it) := by
  cases hpop : popLive s.pool.awaiterQueue with
  | none =>
    have hq (inuse unused : List ℕ) (size : ℕ) :
        Queued { s.pool with
            awaiterQueue := [], inuse := inuse, unused := unused, size := size }
          s.waiters s.enqueued s.served := by
      have hlive := popLive_eq_none hpop
      obtain ⟨_, _, hids, hseqs, hinj, hbegun, harmed, honce, hidle, hwaits, hqueued, hnodup,
        hchosen, horder⟩ := hs.queued
      simp only [hlive] at hids hwaits horder
      exact ⟨by simp, by simp, hids, hseqs, hinj, hbegun, harmed, honce, hidle, hwaits, hqueued,
        hnodup, hchosen, horder⟩
    cases hasRes with
    | true =>
      have heq : s.recycleLocked true it = { s with
          pool := { s.pool with
            awaiterQueue := [], inuse := s.pool.inuse.erase it, unused := it :: s.pool.unused }
          recycling := s.recycling.erase it } := by
        simp [State.recycleLocked, Pool.recycle, hpop]
      rw [heq] at ht ⊢
      exact ⟨ht, hq (s.pool.inuse.erase it) (it :: s.pool.unused) s.pool.size, by simp, hs.cap⟩
    | false =>
      have heq : s.recycleLocked false it = { s with
          pool := { s.pool with awaiterQueue := [], size := s.pool.size - 1 }
          recycling := s.recycling.erase it } := by
        simp [State.recycleLocked, Pool.recycle, hpop]
      rw [heq] at ht ⊢
      exact ⟨ht, hq s.pool.inuse s.pool.unused (s.pool.size - 1), by simp, hs.cap⟩
  | some r =>
    obtain ⟨i, r⟩ := r
    have hne : s.pool.awaiterQueue ≠ [] := by
      intro hnil
      simp [hnil, popLive] at hpop
    have hqueued := hs.queued.serve hpop
    have hbusy := hs.busy hne
    have heq : s.recycleLocked hasRes it = { s with
        pool := { s.pool with
          awaiterQueue := r, awaiters := s.pool.awaiters.erase (s.waiters i).getId }
        recycling := s.recycling.erase it
        completing := (i, it) :: s.completing
        served := s.served ++ [i]
        waiters := Function.update s.waiters i
          { s.waiters i with completions := (s.waiters i).completions ++ [.handedOver] } } := by
      simp [State.recycleLocked, Pool.recycle, hpop, State.setWaiter]
    rw [heq] at ht ⊢
    exact ⟨ht, hqueued, fun _ => hbusy, hs.cap⟩

theorem Orderly.giveUp {cause : Cause} (hs : Orderly hasRes s) (hi : (s.waiters i).id ≠ none)
    (hc : cause ≠ .handedOver) (ht : Conserved hasRes (s.giveUp cause i)) :
    Orderly hasRes (s.giveUp cause i) := by
  by_cases hid : (s.waiters i).getId ∈ s.pool.awaiters
  · have hne : s.pool.awaiterQueue ≠ [] := by
      obtain ⟨w, hw, _⟩ := (hs.queued.ids _).1 hid
      rintro hnil
      simp [hnil, live] at hw
    have hqueued := hs.queued.remove hid hi hc
    have hbusy := hs.busy hne
    have heq : s.giveUp cause i = { s with
        pool := { s.pool with
          awaiters := s.pool.awaiters.erase (s.waiters i).getId
          awaiterQueue := setNull (s.waiters i).getId.2 s.pool.awaiterQueue }
        waiters := Function.update s.waiters i { s.waiters i with
          stopCb := false, completions := (s.waiters i).completions ++ [cause] } } := by
      simp [State.giveUp, Pool.removeAwaiter, hid, State.setWaiter]
    rw [heq] at ht ⊢
    exact ⟨ht, hqueued, fun _ => hbusy, hs.cap⟩
  · have heq : s.giveUp cause i = s := by
      simp [State.giveUp, Pool.removeAwaiter, hid]
    rwa [heq]

theorem orderly_step {e : Event ι} (hs : Orderly hasRes s)
    (h : step hasRes opts s e = some t) : Orderly hasRes t := by
  have ht := conserved_step hs.conserved h
  have hwaiter {w : Waiter} (i : ι) (hid : w.id = (s.waiters i).id)
      (hc : w.completions = (s.waiters i).completions) (hb : w.begun = (s.waiters i).begun)
      (ha : w.timer = true ∨ w.stopCb = true →
        (s.waiters i).timer = true ∨ (s.waiters i).stopCb = true) :
      Queued s.pool (Function.update s.waiters i w) s.enqueued s.served :=
    hs.queued.update hid hc (fun hw => hs.queued.begun i (hb ▸ hw))
      (fun hw => hs.queued.armed i (ha hw))
  cases e with
  | tryAcquire =>
    cases h
    obtain ⟨hq, hinUse, hcap⟩ := orderly_tryAcquire hs
    exact hs.same ht hq rfl rfl rfl hinUse hcap
  | acquire i addr stopRequested =>
    obtain ⟨hb, h⟩ := Option.ite_none_left_eq_some.1 h
    exact hs.acquire (by simpa using hb) ht h
  | recycle k =>
    simp only [step] at h
    split at h
    · cases h
    · split at h <;> cases h
      · exact hs.same ht .rfl rfl rfl rfl id hs.cap
      · exact hs
  | recycleLocked it =>
    obtain ⟨hit, h⟩ := Option.ite_none_right_eq_some.1 h
    cases h
    exact hs.recycleLocked ht
  | complete i it =>
    obtain ⟨hit, h⟩ := Option.ite_none_right_eq_some.1 h
    cases h
    exact hs.same ht .rfl rfl rfl rfl id hs.cap
  | resume i it =>
    obtain ⟨hit, h⟩ := Option.ite_none_right_eq_some.1 h
    cases h
    exact ⟨ht, hwaiter i rfl rfl rfl (by simp +contextual), hs.busy, hs.cap⟩
  | timeout i =>
    obtain ⟨htimer, h⟩ := Option.ite_none_right_eq_some.1 h
    cases h
    have hid := hs.queued.armed i (.inl htimer)
    have hq := hwaiter (w := { s.waiters i with timer := false }) i rfl rfl rfl (by simp +contextual)
    refine Orderly.giveUp ⟨?_, hq, hs.busy, hs.cap⟩ (by simpa [State.setWaiter] using hid) (by simp) ht
    exact hs.conserved.pass rfl ⟨rfl, rfl, rfl, rfl, rfl⟩ rfl
  | stop i =>
    obtain ⟨hstop, h⟩ := Option.ite_none_right_eq_some.1 h
    cases h
    have hid := hs.queued.armed i (.inr hstop)
    have hq := hwaiter (w := { s.waiters i with stopCb := false }) i rfl rfl rfl (by simp +contextual)
    refine Orderly.giveUp ⟨?_, hq, hs.busy, hs.cap⟩ (by simpa [State.setWaiter] using hid) (by simp) ht
    exact hs.conserved.pass rfl ⟨rfl, rfl, rfl, rfl, rfl⟩ rfl
  | newHolder =>
    cases h
    exact hs.same ht .rfl rfl rfl rfl id hs.cap
  | moveConstruct k =>
    simp only [step] at h
    split at h <;> cases h
    exact hs.same ht .rfl rfl rfl rfl id hs.cap
  | moveAssign j k =>
    simp only [step] at h
    split at h <;> cases h
    exact hs.same ht .rfl rfl rfl rfl id hs.cap
  | clearUnused =>
    obtain ⟨-, h⟩ := Option.ite_none_right_eq_some.1 h
    cases h
    exact hs.same ht ⟨rfl, rfl, rfl⟩ rfl rfl rfl id hs.cap
  | reserve n =>
    cases h
    obtain ⟨hq, hinUse, hcap⟩ := reserve_keeps hasRes n s.pool
    exact hs.same ht hq rfl rfl rfl (fun hpos => hinUse ▸ hpos) (hcap hs.cap)
  | reserveBy scaled maxCap =>
    cases h
    cases scaled with
    | none => exact hs
    | some n =>
      obtain ⟨hq, hinUse, hcap⟩ := reserve_keeps hasRes (min maxCap n) s.pool
      exact hs.same ht hq rfl rfl rfl (fun hpos => hinUse ▸ hpos) (hcap hs.cap)
  | createAll =>
    obtain ⟨hr, h⟩ := Option.ite_none_right_eq_some.1 h
    cases h
    subst hr
    obtain ⟨hinuse, hq, hcap⟩ :=
      Pool.createN_inuse (s.pool.cap - s.pool.occupiedCap true) s.pool
    refine hs.same ht hq rfl rfl rfl (fun hpos => ?_) ?_
    · show 0 < (Pool.createN _ s.pool).inUse true
      simpa [Pool.inUse, hinuse] using hpos
    · exact hcap.symm ▸ hs.cap

/-- The waiter queue in every reachable state: the ids are those of the waiters in the queue;
a queued waiter is completed at most once, and in the queue as long as it is not; those chosen
and those still waiting follow the order of the queue; a queue of whatever slots means that a
resource is in use; and without owners the destructor's assertions hold. -/
theorem queue_orderly (hasRes : Bool) (opts : ι → Options) (cap : ℕ) (hcap : 0 < cap)
    (es : List (Event ι)) (s : State ι)
    (h : Steps.run (step hasRes opts) (.init cap) es = some s) :
    (∀ id, id ∈ s.pool.awaiters ↔
      ∃ a w, (a, some w) ∈ s.pool.awaiterQueue ∧ (s.waiters w).id = some id) ∧
    (∀ i ∈ s.enqueued, (s.waiters i).completions.length ≤ 1 ∧
      (i ∈ live s.pool.awaiterQueue ↔ (s.waiters i).completions = []) ∧
      (i ∈ s.served ↔ (s.waiters i).completions = [.handedOver])) ∧
    s.enqueued.Nodup ∧ (s.served ++ live s.pool.awaiterQueue).Sublist s.enqueued ∧
    (s.pool.awaiterQueue ≠ [] → 0 < s.pool.inUse hasRes) ∧
    (s.owners = 0 → s.pool.destructible hasRes = true) := by
  have hs : Orderly hasRes s :=
    Steps.invariant_of_step (fun _ _ _ hs ht => orderly_step hs ht) (orderly_init hcap) h
  have hq := hs.queued
  have hids (id : Id) : id ∈ s.pool.awaiters ↔
      ∃ a w, (a, some w) ∈ s.pool.awaiterQueue ∧ (s.waiters w).id = some id := by
    simp only [hq.ids, mem_live]
    constructor
    · rintro ⟨w, ⟨a, ha⟩, hid⟩
      exact ⟨a, w, ha, hid⟩
    · rintro ⟨a, w, ha, hid⟩
      exact ⟨w, ⟨a, ha⟩, hid⟩
  refine ⟨hids, fun i hi => ⟨hq.once i, ?_, ?_⟩, hq.nodup, hq.order, hs.busy, fun hnone => ?_⟩
  · rw [hq.waits, and_iff_right ((hq.queued i).1 hi)]
  · rw [hq.chosen]
    have := hq.once i
    match hc : (s.waiters i).completions with
    | [] => simp
    | [c] => simp [eq_comm]
    | _ :: _ :: _ => simp [hc] at this
  · have hidle : s.pool.inUse hasRes = 0 := by
      rw [← hs.conserved.counts.card, hnone]
      rfl
    have hempty : s.pool.awaiterQueue = [] := by
      by_contra hne
      have := hs.busy hne
      omega
    have hnoids : s.pool.awaiters = ∅ := by
      refine Finset.eq_empty_of_forall_notMem fun id hid => ?_
      obtain ⟨a, w, ha, _⟩ := (hids id).1 hid
      simp [hempty] at ha
    cases hasRes <;> simpa [Pool.destructible, hempty, hnoids, Pool.inUse] using hidle

/-- Two waiters, of which the first gives up and the second is served. -/
theorem queue_orderly_timeout :
    ∃ s : State ℕ, s.enqueued = [0, 1] ∧ s.served = [1] ∧
      (s.pool.awaiterQueue ≠ [] → 0 < s.pool.inUse true) := by
  have h := queue_orderly true (fun _ => ⟨true, true⟩) 1 (by decide)
    [.tryAcquire, .acquire 0 0 false, .acquire 1 1 false, .timeout 0, .recycle 0,
      .recycleLocked 1] _ rfl
  exact ⟨_, rfl, rfl, h.2.2.2.2.1⟩

end Steps

end Jkl.Async.ResPool
