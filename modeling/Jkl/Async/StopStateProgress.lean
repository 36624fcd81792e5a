import Jkl.Async.StopStateSafety
import Mathlib.Algebra.BigOperators.Group.Finset.Piecewise

/-! No interleaving of the calls ends in a deadlock: from every state the calls that are under
way can all return. -/
namespace Jkl.StopState

namespace Frame

variable {C K : Type}

/-- A bound of the steps that are left; a callback in the list costs eight. -/
def weight : Frame C K → ℕ
  | .signal _ none => 5
  | .signal _ (some _) => 4
  | .setThread _ => 3
  | .dequeue _ => 2
  | .unlockToRun .. => 9
  | .mark .. => 8
  | .running .. => 7
  | .clearRemoved .. => 6
  | .storeFinished .. => 5
  | .relock _ none => 4
  | .relock _ (some _) => 3
  | .unlockToReturn _ => 1
  | .tryAdd _ _ none => 13
  | .tryAdd _ _ (some _) => 12
  | .executing .. => 1
  | .push .. => 11
  | .unlockAdded .. => 2
  | .added .. => 1
  | .lockToRemove _ none => 9
  | .lockToRemove _ (some _) => 8
  | .unlink _ => 7
  | .unlockRemoved _ => 3
  | .unlockNotFound _ => 6
  | .checkThread _ => 5
  | .awaitFinished _ => 4
  | .removeReference _ => 3
  | .deleteState _ => 2
  | .destroyed _ => 1

/-- The token references that a call may still add. -/
def demand : Frame C K → ℕ
  | .tryAdd .. | .push .. | .unlockAdded .. => 1
  | _ => 0

/-- The call is about to try and take the lock. -/
def spins : Frame C K → Bool
  | .signal _ (some _) | .relock _ (some _) | .tryAdd _ _ (some _) | .lockToRemove _ (some _) =>
    true
  | _ => false

/-- The call after it has failed to take the lock. -/
def reload (w : ℕ) : Frame C K → Frame C K
  | .signal k (some _) => .signal k (some w)
  | .relock k (some _) => .relock k (some w)
  | .tryAdd tk cb (some _) => .tryAdd tk cb (some w)
  | .lockToRemove cb (some _) => .lockToRemove cb (some w)
  | f => f

@[simp] theorem weight_reload (w : ℕ) (f : Frame C K) : (f.reload w).weight = f.weight := by
  fun_cases reload w f <;> rfl

@[simp] theorem demand_reload (w : ℕ) (f : Frame C K) : (f.reload w).demand = f.demand := by
  fun_cases reload w f <;> rfl

@[simp] theorem reload_reload (w : ℕ) (f : Frame C K) : (f.reload w).reload w = f.reload w := by
  fun_cases reload w f <;> simp_all [reload]

end Frame

namespace State

variable {T C K : Type} [Fintype T]

def total (weigh : Frame C K → ℕ) (s : State T C K) : ℕ :=
  ∑ t, ((s.stack t).map weigh).sum

def cost (s : State T C K) : ℕ := s.total Frame.weight + 8 * s.queue.length

/-- The references that there are, and that there may be when all calls have returned. -/
def demand (s : State T C K) : ℕ :=
  s.total Frame.demand + (s.tokens.length + s.refs.length)

/-- The step brings the calls closer to their ends, and needs no more references than were
reckoned with. -/
structure Spends (s s' : State T C K) : Prop where
  cost : s'.cost < s.cost
  demand : s'.demand ≤ s.demand
  sources : s'.sources = s.sources

variable [DecidableEq T] {s s₁ s' : State T C K} {t : T} {f : Frame C K}
  {rest : List (Frame C K)}

theorem total_goto (weigh : Frame C K → ℕ) (fs : List (Frame C K))
    (hst : s₁.stack = s.stack) :
    (s₁.goto t fs).total weigh + ((s.stack t).map weigh).sum =
      s.total weigh + (fs.map weigh).sum := by
  have hupdate : (fun u => (((s₁.goto t fs).stack u).map weigh).sum) =
      Function.update (fun u => ((s.stack u).map weigh).sum) t (fs.map weigh).sum := by
    funext u
    by_cases hu : u = t
    · subst hu
      simp [goto]
    · simp [goto, hu, hst]
  simp only [total, hupdate]
  rw [Finset.sum_update_of_mem (Finset.mem_univ t),
    ← Finset.add_sum_erase _ _ (Finset.mem_univ t), Finset.sdiff_singleton_eq_erase]
  omega

theorem Spends.goto (fs : List (Frame C K)) (s₁ : State T C K) (hs : s.stack t = f :: rest)
    (hst : s₁.stack = s.stack) (hsrc : s₁.sources = s.sources)
    (hcost : (fs.map Frame.weight).sum + 8 * s₁.queue.length < f.weight + 8 * s.queue.length)
    (hdemand : (fs.map Frame.demand).sum + (s₁.tokens.length + s₁.refs.length) ≤
      f.demand + (s.tokens.length + s.refs.length)) : Spends s (s₁.goto t (fs ++ rest)) := by
  have hw := total_goto (t := t) Frame.weight (fs ++ rest) hst
  have hd := total_goto (t := t) Frame.demand (fs ++ rest) hst
  simp only [hs, List.map_cons, List.sum_cons, List.map_append, List.sum_append] at hw hd
  constructor
  · have hq : (s₁.goto t (fs ++ rest)).queue = s₁.queue := rfl
    simp only [State.cost, hq]
    omega
  · have ht : (s₁.goto t (fs ++ rest)).tokens = s₁.tokens := rfl
    have hr : (s₁.goto t (fs ++ rest)).refs = s₁.refs := rfl
    simp only [State.demand, ht, hr]
    omega
  · exact hsrc

theorem Spends.quiet (fs : List (Frame C K)) (s₁ : State T C K) (hs : s.stack t = f :: rest)
    (heq : (s₁.stack, s₁.sources, s₁.queue, s₁.tokens, s₁.refs) =
      (s.stack, s.sources, s.queue, s.tokens, s.refs))
    (hcost : (fs.map Frame.weight).sum < f.weight)
    (hdemand : (fs.map Frame.demand).sum ≤ f.demand) : Spends s (s₁.goto t (fs ++ rest)) := by
  simp only [Prod.mk.injEq] at heq
  obtain ⟨hst, hsrc, hq, ht, hr⟩ := heq
  apply Spends.goto fs s₁ hs hst hsrc
  · rw [hq]
    exact Nat.add_lt_add_right hcost _
  · rw [ht, hr]
    exact Nat.add_le_add_right hdemand _

theorem Spends.afterRun {k : K} {anyMore : Bool} (s₁ : State T C K) (hs : s.stack t = f :: rest)
    (heq : (s₁.stack, s₁.sources, s₁.queue, s₁.tokens, s₁.refs) =
      (s.stack, s.sources, s.queue, s.tokens, s.refs))
    (hf : 4 < f.weight) :
    Spends s (s₁.afterRun t k anyMore rest) := by
  simp only [State.afterRun]
  split
  · exact .quiet [.relock k none] s₁ hs heq hf (Nat.zero_le _)
  · exact .quiet [] { s₁ with wins := s₁.wins + 1 } hs heq (Nat.zero_lt_of_lt hf) (Nat.zero_le _)

theorem Spends.release {w least : ℕ} {o : Option C} (s₁ : State T C K)
    (hs : s.stack t = f :: rest) (hst : s₁.stack = s.stack) (hsrc : s₁.sources = s.sources)
    (hq : s₁.queue = s.queue) (hr : s₁.tokens.length + s₁.refs.length ≤
      s.tokens.length + s.refs.length) (hf : 2 < f.weight) :
    Spends s (s₁.release t w least o rest) := by
  simp only [State.release]
  split
  · apply Spends.goto [.deleteState o] { s₁ with deleter := some t } hs hst hsrc
    · rw [← hq]
      exact Nat.add_lt_add_right hf _
    · exact Nat.add_le_add (Nat.zero_le _) hr
  · apply Spends.goto (o.toList.map Frame.destroyed) s₁ hs hst hsrc
    · rw [← hq]
      apply Nat.add_lt_add_right
      cases o with
      | none => exact Nat.zero_lt_of_lt hf
      | some cb => exact Nat.lt_of_succ_lt hf
    · apply Nat.add_le_add _ hr
      cases o <;> exact Nat.zero_le _

variable {cb : C}

theorem Spends.notAdded [DecidableEq C] {tk : Arg K}
    (hs : s.stack t = f :: rest) (htk : s.HasToken tk cb) (hf : 0 < f.weight) :
    Spends s (s.notAdded t tk cb rest) := by
  cases tk with
  | copied k =>
    exact .quiet [] { s with phase := Function.update s.phase cb .alive } hs rfl hf
      (Nat.zero_le _)
  | moved k =>
    apply Spends.goto [] { s with
      phase := Function.update s.phase cb .alive
      tokens := k :: s.tokens
      refs := s.refs.erase cb } hs rfl rfl
    · exact Nat.add_lt_add_right hf _
    · have hlen := length_of_mem_refs (s := s) htk
      simp only [List.length_cons, List.map_nil, List.sum_nil]
      omega

/-- What a step of a call comes to, when a `compare_exchange_weak` fails for a reason only. -/
inductive Comes (s s' : State T C K) (t : T) (f : Frame C K) (rest : List (Frame C K)) : Prop where
  | spends (h : Spends s s')
  /-- The lock is taken, or was when the word was last read. -/
  | spins (hf : f.spins = true) (hs' : s' = s.goto t (f.reload s.word :: rest))
      (hne : isLocked s.word = false → f ≠ f.reload s.word)
  /-- The call waits for a callback. -/
  | waits (cb : C) (x : Intrusive.Cell C Callback) (hf : f = .awaitFinished cb)
      (hx : s.links.cell cb = some x) (hfin : x.data.callbackFinishedExecuting = false)

omit [Fintype T] in
theorem exchange_cases {old : ℕ} {retry : ℕ → Frame C K}
    (h : s.exchange t false old retry s₁ rest = some s') :
    s' = s.goto t (retry s.word :: rest) ∧ (isLocked s.word = false → old ≠ s.word) ∨
    s' = s₁ := by
  obtain ⟨w, hw, h⟩ := Option.bind_eq_some_iff.1 h
  obtain rfl : s.word = w := Option.some.inj (Option.ite_none_left_eq_some.1 hw).2
  split at h
  · rename_i hcond
    refine .inl ⟨(Option.some.inj h).symm, ?_⟩
    rintro hl rfl
    simp [hl] at hcond
  · exact .inr (Option.some.inj h).symm

/-- A `compare_exchange_weak` that takes the lock, or reads the word again. -/
theorem comes_of_exchange {old : ℕ} {retry : ℕ → Frame C K}
    (h : s.exchange t false old retry s₁ rest = some s') (hspins : (retry old).spins = true)
    (hreload : (retry old).reload s.word = retry s.word)
    (hretry : retry old = retry s.word → old = s.word) (h₁ : Spends s s₁) :
    Comes s s' t (retry old) rest := by
  rcases exchange_cases h with ⟨rfl, hne⟩ | rfl
  · refine .spins hspins (by rw [hreload]) fun hl heq => hne hl (hretry ?_)
    rw [← hreload]
    exact heq
  · exact .spends h₁

variable [DecidableEq C]

/-! The calls for which a step depends on what it reads. -/

theorem comes_of_signal {k : K} {old : Option ℕ} (hs : s.stack t = .signal k old :: rest)
    (h : s.advance t false rest (.signal k old) = some s') :
    Comes s s' t (.signal k old) rest := by
  cases old with
  | none =>
    obtain ⟨w, -, h⟩ := Option.bind_eq_some_iff.1 h
    obtain rfl := Option.some.inj h
    exact .spends (.quiet [.signal k (some w)] s hs rfl (Nat.lt_succ_self 4) (Nat.zero_le _))
  | some old =>
    simp only [State.advance] at h
    split at h
    · obtain rfl := Option.some.inj h
      exact .spends (.quiet [] s hs rfl (Nat.zero_lt_succ 3) (Nat.zero_le _))
    · apply comes_of_exchange h rfl rfl (by simp)
      exact .quiet [.setThread k] _ hs rfl (Nat.lt_succ_self 3) (Nat.zero_le _)

theorem Inv.spends_of_dequeue {k : K} (hinv : s.Inv) (hs : s.stack t = .dequeue k :: rest)
    (h : s.advance t false rest (.dequeue k) = some s') : Spends s s' := by
  obtain ⟨w, -, h⟩ := Option.bind_eq_some_iff.1 h
  have hhead := hinv.shared.links.head
  split at h
  · obtain rfl := Option.some.inj h
    exact .quiet [.unlockToReturn k] s hs rfl (Nat.lt_succ_self 1) (Nat.zero_le _)
  · rename_i cb hcb
    obtain ⟨links, -, h⟩ := Option.bind_eq_some_iff.1 h
    obtain rfl := Option.some.inj h
    obtain ⟨q, hq⟩ : ∃ q, s.queue = cb :: q := List.head?_eq_some_iff.1 (hhead ▸ hcb)
    refine .goto [.unlockToRun k cb _] _ hs rfl rfl ?_ (Nat.le_refl _)
    simp only [hq, List.tail_cons, List.length_cons, List.map_cons, List.map_nil, List.sum_cons,
      List.sum_nil, Frame.weight]
    omega

theorem comes_of_relock {k : K} {old : Option ℕ} (hs : s.stack t = .relock k old :: rest)
    (h : s.advance t false rest (.relock k old) = some s') :
    Comes s s' t (.relock k old) rest := by
  cases old with
  | none =>
    obtain ⟨w, -, h⟩ := Option.bind_eq_some_iff.1 h
    obtain rfl := Option.some.inj h
    exact .spends (.quiet [.relock k (some w)] s hs rfl (Nat.lt_succ_self 3) (Nat.zero_le _))
  | some old =>
    apply comes_of_exchange h rfl rfl (by simp)
    exact .quiet [.dequeue k] _ hs rfl (Nat.lt_succ_self 2) (Nat.zero_le _)

theorem comes_of_tryAdd {tk : Arg K} {old : Option ℕ} (htk : s.HasToken tk cb)
    (hs : s.stack t = .tryAdd tk cb old :: rest)
    (h : s.advance t false rest (.tryAdd tk cb old) = some s') :
    Comes s s' t (.tryAdd tk cb old) rest := by
  cases old with
  | none =>
    obtain ⟨w, -, h⟩ := Option.bind_eq_some_iff.1 h
    obtain rfl := Option.some.inj h
    exact .spends (.quiet [.tryAdd tk cb (some w)] s hs rfl (Nat.lt_succ_self 12) (Nat.le_refl _))
  | some old =>
    simp only [State.advance] at h
    split at h
    · obtain ⟨x, -, h⟩ := Option.bind_eq_some_iff.1 h
      obtain rfl := Option.some.inj h
      exact .spends (.quiet [.executing tk cb] _ hs rfl (by simp [Frame.weight]) (Nat.zero_le _))
    · split at h
      · obtain rfl := Option.some.inj h
        exact .spends (.notAdded hs htk (Nat.zero_lt_succ 11))
      · apply comes_of_exchange h rfl rfl (by simp)
        exact .quiet [.push tk cb] _ hs rfl (Nat.lt_succ_self 11) (Nat.le_refl _)

theorem spends_of_unlockAdded {tk : Arg K} (hs : s.stack t = .unlockAdded tk cb :: rest)
    (h : s.advance t false rest (.unlockAdded tk cb) = some s') : Spends s s' := by
  obtain ⟨w, -, h⟩ := Option.bind_eq_some_iff.1 h
  cases tk with
  | copied k =>
    obtain rfl := Option.some.inj h
    refine .goto [.added (.copied k) cb] _ hs rfl rfl ?_ ?_
    · exact Nat.add_lt_add_right (Nat.lt_succ_self 1) _
    · simp only [List.length_cons, List.map_cons, List.map_nil, List.sum_cons, List.sum_nil,
        Frame.demand]
      omega
  | moved k =>
    obtain rfl := Option.some.inj h
    exact .quiet [.added (.moved k) cb] _ hs rfl (Nat.lt_succ_self 1) (Nat.zero_le _)

theorem comes_of_lockToRemove {old : Option ℕ} (hs : s.stack t = .lockToRemove cb old :: rest)
    (h : s.advance t false rest (.lockToRemove cb old) = some s') :
    Comes s s' t (.lockToRemove cb old) rest := by
  cases old with
  | none =>
    obtain ⟨w, -, h⟩ := Option.bind_eq_some_iff.1 h
    obtain rfl := Option.some.inj h
    exact .spends (.quiet [.lockToRemove cb (some w)] s hs rfl (Nat.lt_succ_self 8)
      (Nat.zero_le _))
  | some old =>
    apply comes_of_exchange h rfl rfl (by simp)
    exact .quiet [.unlink cb] _ hs rfl (Nat.lt_succ_self 7) (Nat.zero_le _)

theorem spends_of_unlink (hs : s.stack t = .unlink cb :: rest)
    (h : s.advance t false rest (.unlink cb) = some s') : Spends s s' := by
  obtain ⟨w, -, h⟩ := Option.bind_eq_some_iff.1 h
  obtain ⟨x, -, h⟩ := Option.bind_eq_some_iff.1 h
  split at h
  · obtain ⟨links, -, h⟩ := Option.bind_eq_some_iff.1 h
    obtain rfl := Option.some.inj h
    refine .goto [.unlockRemoved cb] _ hs rfl rfl ?_ (Nat.le_refl _)
    have hlen : (s.queue.erase cb).length ≤ s.queue.length := List.length_erase_le
    simp only [List.map_cons, List.map_nil, List.sum_cons, List.sum_nil, Frame.weight]
    omega
  · obtain rfl := Option.some.inj h
    exact .quiet [.unlockNotFound cb] s hs rfl (Nat.lt_succ_self 6) (Nat.zero_le _)

theorem spends_of_checkThread (hs : s.stack t = .checkThread cb :: rest)
    (h : s.advance t false rest (.checkThread cb) = some s') : Spends s s' := by
  obtain ⟨w, -, h⟩ := Option.bind_eq_some_iff.1 h
  split at h
  · obtain ⟨x, -, h⟩ := Option.bind_eq_some_iff.1 h
    split at h
    · obtain rfl := Option.some.inj h
      exact .quiet [.removeReference cb] s hs rfl (by simp [Frame.weight]) (Nat.zero_le _)
    · obtain ⟨n, -, h⟩ := Option.bind_eq_some_iff.1 h
      obtain rfl := Option.some.inj h
      exact .quiet [.removeReference cb] _ hs rfl (by simp [Frame.weight]) (Nat.zero_le _)
  · obtain rfl := Option.some.inj h
    exact .quiet [.awaitFinished cb] s hs rfl (Nat.lt_succ_self 4) (Nat.zero_le _)

theorem comes_of_awaitFinished (hs : s.stack t = .awaitFinished cb :: rest)
    (h : s.advance t false rest (.awaitFinished cb) = some s') :
    Comes s s' t (.awaitFinished cb) rest := by
  obtain ⟨x, hx, h⟩ := Option.bind_eq_some_iff.1 h
  split at h
  · obtain rfl := Option.some.inj h
    exact .spends (.quiet [.removeReference cb] s hs rfl (Nat.lt_succ_self 3) (Nat.zero_le _))
  · rename_i hfin
    exact .waits cb x rfl hx (by simpa using hfin)

/-- A step of a call brings the calls closer to their ends, unless the lock is taken, or was
when the word was last read, or the call waits for a callback. -/
theorem Inv.comes (hinv : s.Inv) (hs : s.stack t = f :: rest)
    (h : s.advance t false rest f = some s') : Comes s s' t f rest := by
  have htop : f.Holds s t := hinv.top hs
  cases f with
  | signal k old => exact comes_of_signal hs h
  | setThread k =>
    obtain ⟨w, -, h⟩ := Option.bind_eq_some_iff.1 h
    obtain rfl := Option.some.inj h
    exact .spends (.quiet [.dequeue k] _ hs rfl (Nat.lt_succ_self 2) (Nat.zero_le _))
  | dequeue k => exact .spends (hinv.spends_of_dequeue hs h)
  | unlockToRun k cb anyMore =>
    obtain ⟨w, -, h⟩ := Option.bind_eq_some_iff.1 h
    obtain rfl := Option.some.inj h
    exact .spends (.quiet [.mark k cb anyMore] _ hs rfl (Nat.lt_succ_self 8) (Nat.zero_le _))
  | mark k cb anyMore =>
    obtain ⟨x, -, h⟩ := Option.bind_eq_some_iff.1 h
    obtain rfl := Option.some.inj h
    exact .spends (.quiet [.running k cb anyMore s.nextFlag] _ hs rfl (Nat.lt_succ_self 7)
      (Nat.zero_le _))
  | running k cb anyMore n =>
    obtain ⟨removed, -, h⟩ := Option.bind_eq_some_iff.1 h
    split at h
    · obtain rfl := Option.some.inj h
      exact .spends (.afterRun _ hs rfl (by simp [Frame.weight]))
    · obtain rfl := Option.some.inj h
      exact .spends (.quiet [.clearRemoved k cb anyMore n] s hs rfl (Nat.lt_succ_self 6)
        (Nat.zero_le _))
  | clearRemoved k cb anyMore n =>
    obtain ⟨x, -, h⟩ := Option.bind_eq_some_iff.1 h
    obtain rfl := Option.some.inj h
    exact .spends (.quiet [.storeFinished k cb anyMore n] _ hs rfl (Nat.lt_succ_self 5)
      (Nat.zero_le _))
  | storeFinished k cb anyMore n =>
    obtain ⟨x, -, h⟩ := Option.bind_eq_some_iff.1 h
    obtain rfl := Option.some.inj h
    exact .spends (.afterRun _ hs rfl (Nat.lt_succ_self 4))
  | relock k old => exact comes_of_relock hs h
  | unlockToReturn k =>
    obtain ⟨w, -, h⟩ := Option.bind_eq_some_iff.1 h
    obtain rfl := Option.some.inj h
    exact .spends (.quiet [] _ hs rfl (Nat.zero_lt_succ 0) (Nat.zero_le _))
  | tryAdd tk cb old => exact comes_of_tryAdd htop.2.1 hs h
  | executing tk cb =>
    obtain rfl := Option.some.inj h
    exact .spends (.notAdded hs htop.2.1 (Nat.zero_lt_succ 0))
  | push tk cb =>
    obtain ⟨w, -, h⟩ := Option.bind_eq_some_iff.1 h
    obtain ⟨links, -, h⟩ := Option.bind_eq_some_iff.1 h
    obtain rfl := Option.some.inj h
    refine .spends (.goto [.unlockAdded tk cb] _ hs rfl rfl ?_ (Nat.le_refl _))
    simp only [List.length_cons, List.map_cons, List.map_nil, List.sum_cons, List.sum_nil,
      Frame.weight]
    omega
  | unlockAdded tk cb => exact .spends (spends_of_unlockAdded hs h)
  | added tk cb =>
    obtain ⟨x, -, h⟩ := Option.bind_eq_some_iff.1 h
    obtain rfl := Option.some.inj h
    exact .spends (.quiet [] _ hs rfl (Nat.zero_lt_succ 0) (Nat.zero_le _))
  | lockToRemove cb old => exact comes_of_lockToRemove hs h
  | unlink cb => exact .spends (spends_of_unlink hs h)
  | unlockRemoved cb =>
    obtain ⟨w, -, h⟩ := Option.bind_eq_some_iff.1 h
    obtain rfl := Option.some.inj h
    exact .spends (.release _ hs rfl rfl rfl (Nat.add_le_add_left List.length_erase_le _)
      (Nat.lt_succ_self 2))
  | unlockNotFound cb =>
    obtain ⟨w, -, h⟩ := Option.bind_eq_some_iff.1 h
    obtain rfl := Option.some.inj h
    exact .spends (.quiet [.checkThread cb] _ hs rfl (Nat.lt_succ_self 5) (Nat.zero_le _))
  | checkThread cb => exact .spends (spends_of_checkThread hs h)
  | awaitFinished cb => exact comes_of_awaitFinished hs h
  | removeReference cb =>
    obtain ⟨w, -, h⟩ := Option.bind_eq_some_iff.1 h
    obtain rfl := Option.some.inj h
    exact .spends (.release _ hs rfl rfl rfl (Nat.add_le_add_left List.length_erase_le _)
      (Nat.lt_succ_self 2))
  | deleteState o =>
    simp only [State.advance] at h
    split at h
    · cases h
    · obtain rfl := Option.some.inj h
      refine .spends (.quiet (o.toList.map Frame.destroyed) _ hs rfl ?_ ?_)
      · cases o <;> simp [Frame.weight]
      · cases o <;> exact Nat.le_refl _
  | destroyed cb =>
    obtain ⟨x, -, h⟩ := Option.bind_eq_some_iff.1 h
    obtain rfl := Option.some.inj h
    exact .spends (.quiet [] _ hs rfl (Nat.zero_lt_succ 0) (Nat.zero_le _))

/-- There is room for the references that the calls under way may still add. -/
def HasRoomForCalls (s : State T C K) : Prop :=
  s.demand + 1 < 2 ^ 31 ∧ s.sources.length + 1 < 2 ^ 31

omit [DecidableEq T] [DecidableEq C] in
theorem HasRoomForCalls.hasRoom (h : s.HasRoomForCalls) : s.HasRoom :=
  ⟨(Nat.add_le_add_right (Nat.le_add_left _ _) 1).trans_lt h.1, h.2⟩

omit [DecidableEq T] [DecidableEq C] in
theorem Spends.hasRoomForCalls (hspends : Spends s s') (h : s.HasRoomForCalls) :
    s'.HasRoomForCalls :=
  ⟨(Nat.add_le_add_right hspends.demand 1).trans_lt h.1, hspends.sources ▸ h.2⟩

variable [DecidableEq K]

theorem Inv.go (h : s.Inv) (hroom : s.HasRoom) (hs : s.stack t = f :: rest) :
    ∃ s', s.stepWithRoom (.go t false) = some s' ∧ s.advance t false rest f = some s' ∧
      s'.Inv := by
  obtain ⟨s', hs', hinv⟩ := h.advance false hroom.1 hs
  refine ⟨s', ?_, hs', hinv⟩
  rw [stepWithRoom, if_pos hroom, State.step, State.attempt, hs]
  simp [hs']

/-- The threads that go on, one step each. -/
def goOn (s : State T C K) (ts : List T) : Option (State T C K) :=
  Steps.run stepWithRoom s (ts.map fun t => .go t false)

/-- The thread that holds the lock goes on. -/
theorem Inv.progress_of_locked (h : s.Inv) (hroom : s.HasRoom) (hh : s.holder = some t) :
    ∃ ts s', s.goOn ts = some s' ∧ s'.Inv ∧ Spends s s' := by
  obtain ⟨f, hf, hl⟩ := (h.stack t).locks hh
  obtain ⟨rest, hs⟩ := List.head?_eq_some_iff.1 hf
  obtain ⟨s', hgo, hadv, hinv⟩ := h.go hroom hs
  refine ⟨[t], s', ?_, hinv, ?_⟩
  · simp [goOn, Steps.run_cons, hgo]
  · cases h.comes hs hadv with
    | spends hspends => exact hspends
    | spins hspins => cases f <;> simp_all [Frame.locked, Frame.spins]
    | waits cb x hf => cases hf ▸ hl

/-- A thread goes on while nobody holds the lock: it may have to read the word once more. -/
theorem Inv.progress_of_free (h : s.Inv) (hroom : s.HasRoom) (hl : isLocked s.word = false)
    (hs : s.stack t = f :: rest)
    (hf : ∀ cb x, f = .awaitFinished cb → s.links.cell cb = some x →
      x.data.callbackFinishedExecuting = true) :
    ∃ ts s', s.goOn ts = some s' ∧ s'.Inv ∧ Spends s s' := by
  obtain ⟨s₁, hgo, hadv, hinv⟩ := h.go hroom hs
  cases h.comes hs hadv with
  | spends hspends => exact ⟨[t], s₁, by simp [goOn, Steps.run_cons, hgo], hinv, hspends⟩
  | spins hspins hs' hne =>
    subst hs'
    have hs₁ : (s.goto t (f.reload s.word :: rest)).stack t = f.reload s.word :: rest := by
      simp [State.goto]
    obtain ⟨s₂, hgo₂, hadv₂, hinv₂⟩ := hinv.go hroom hs₁
    refine ⟨[t, t], s₂, by simp [goOn, Steps.run_cons, hgo, hgo₂], hinv₂, ?_⟩
    have hcost : (s.goto t (f.reload s.word :: rest)).cost = s.cost := by
      have htotal := total_goto (t := t) Frame.weight (f.reload s.word :: rest)
        (rfl : s.stack = s.stack)
      simp only [hs, List.map_cons, List.sum_cons, Frame.weight_reload] at htotal
      exact congrArg (· + 8 * s.queue.length) (Nat.add_right_cancel htotal)
    have hdemand : (s.goto t (f.reload s.word :: rest)).demand = s.demand := by
      have htotal := total_goto (t := t) Frame.demand (f.reload s.word :: rest)
        (rfl : s.stack = s.stack)
      simp only [hs, List.map_cons, List.sum_cons, Frame.demand_reload] at htotal
      exact congrArg (· + (s.tokens.length + s.refs.length)) (Nat.add_right_cancel htotal)
    cases hinv.comes hs₁ hadv₂ with
    | spends hspends =>
      exact ⟨hspends.cost.trans_eq hcost, hspends.demand.trans_eq hdemand, hspends.sources⟩
    | spins _ _ hne => exact absurd (Frame.reload_reload ..).symm (hne hl)
    | waits cb x hcb => fun_cases Frame.reload s.word f <;> simp_all [Frame.reload, Frame.spins]
  | waits cb x hcb hx hfin => cases (hf cb x hcb hx).symm.trans hfin

/-- A thread that is in a call can go on, or another one can. -/
theorem Inv.progress (h : s.Inv) (hroom : s.HasRoom) (hs : s.stack t ≠ []) :
    ∃ ts s', s.goOn ts = some s' ∧ s'.Inv ∧ Spends s s' := by
  by_cases hh : s.holder = none
  · have hl : isLocked s.word = false := by
      by_contra hl
      exact h.shared.isLocked_iff.1 (by simpa using hl) hh
    obtain ⟨f, rest, hfs⟩ := List.exists_cons_of_ne_nil hs
    by_cases hwait : ∃ cb x, f = .awaitFinished cb ∧ s.links.cell cb = some x ∧
        x.data.callbackFinishedExecuting = false
    · -- the thread that calls the callback never waits for one
      obtain ⟨cb, x, rfl, hx, hfin⟩ := hwait
      obtain ⟨-, -, ⟨y, hy⟩, hq, u, hu, hwin⟩ := h.top hfs
      obtain rfl : x = y := Option.some.inj (hx.symm.trans hy.cell)
      have hcur : s.current = some cb := by
        rcases hy.somewhere with hmem | hcur | hfin'
        · exact absurd hmem hq
        · exact hcur
        · cases hfin.symm.trans hfin'
      obtain ⟨g, hg, -⟩ := (h.stack u).serves hwin cb hcur
      obtain ⟨f', rest', hfs'⟩ := List.exists_cons_of_ne_nil (List.ne_nil_of_mem hg)
      apply h.progress_of_free hroom hl hfs'
      rintro c z rfl -
      obtain ⟨-, -, -, -, v, hv, hwin'⟩ := h.top hfs'
      exact absurd (Option.some.inj (hwin'.symm.trans hwin)) hv
    · apply h.progress_of_free hroom hl hfs
      intro cb x hcb hx
      by_contra hfin
      exact hwait ⟨cb, x, hcb, hx, by simpa using hfin⟩
  · obtain ⟨u, hu⟩ := Option.ne_none_iff_exists'.1 hh
    exact h.progress_of_locked hroom hu

theorem goOn_append {ts us : List T} (h : s.goOn ts = some s₁) (h₁ : s₁.goOn us = some s') :
    s.goOn (ts ++ us) = some s' := by
  rw [goOn, List.map_append, Steps.run_append h]
  exact h₁

/-- There is no deadlock: whatever calls are under way, the threads can go on until all of them
have returned. -/
theorem Reachable.not_deadlock {k : K} (h : Reachable k s) (hroom : s.HasRoomForCalls) :
    ∃ ts s', s.goOn ts = some s' ∧ ∀ t, s'.stack t = [] := by
  have hinv := h.inv
  clear h
  induction hn : s.cost using Nat.strong_induction_on generalizing s with
  | _ n ih =>
    subst hn
    by_cases hs : ∃ t, s.stack t ≠ []
    · obtain ⟨t, ht⟩ := hs
      obtain ⟨ts, s₁, hgo, hinv₁, hspends⟩ := hinv.progress hroom.hasRoom ht
      obtain ⟨us, s', hgo', hend⟩ :=
        ih s₁.cost hspends.cost (hspends.hasRoomForCalls hroom) hinv₁ rfl
      exact ⟨ts ++ us, s', goOn_append hgo hgo', hend⟩
    · exact ⟨[], s, rfl, by simpa using hs⟩

/-- Thread 0, in the destructor, waits for the callback that thread 1 has called. -/
theorem Reachable.not_deadlock_destroy : ∃ s : State (Fin 2) ℕ ℕ, Reachable 0 s ∧
    s.stack 0 = [.awaitFinished 0] ∧ s.stack 1 = [.running 0 0 false 0] ∧
    ∃ ts s', s.goOn ts = some s' ∧ ∀ t, s'.stack t = [] := by
  have h := reachable_after 0 (registration ++
    .requestStop 1 0 :: List.replicate 6 (.go 1 false) ++
    .destroy 0 0 :: List.replicate 6 (.go 0 false))
  exact ⟨_, h, by decide +kernel, by decide +kernel,
    h.not_deadlock ⟨by decide +kernel, by decide +kernel⟩⟩

end State

end Jkl.StopState
