import Jkl.Async.ResPool
import Mathlib.Algebra.Order.Group.Multiset
import Mathlib.Tactic.Abel

/-! Who owns the resources of a `res_pool`. Every resource in use is held by exactly one
holder, one completed awaiter or one recycle in progress, in every reachable state. -/
namespace Jkl.Async.ResPool

variable {ι : Type*} {hasRes : Bool} {p : Pool ι} {h : Holder}

namespace Pool

/-- The resources in use. -/
def inUse (hasRes : Bool) (p : Pool ι) : ℕ := if hasRes then p.inuse.length else p.size

/-- The lists hold different resources, and no more than the capacity. -/
structure Sane (hasRes : Bool) (p : Pool ι) : Prop where
  cap : p.occupiedCap hasRes ≤ p.cap
  nodup : (p.inuse ++ p.unused).Nodup
  made : ∀ r ∈ p.inuse ++ p.unused, 0 < r ∧ r ≤ p.created

/-- The queue members are those of another pool. -/
structure SameQueue (p q : Pool ι) : Prop where
  awaiterQueue : q.awaiterQueue = p.awaiterQueue
  awaiters : q.awaiters = p.awaiters
  idSeq : q.idSeq = p.idSeq

/-- `q` has given out the resource of `h`. -/
structure Acquired (hasRes : Bool) (p q : Pool ι) (h : Holder) : Prop where
  valid : h.valid = true
  inuse : hasRes = true → q.inuse = h.it :: p.inuse
  size : hasRes = false → q.size = p.size + 1
  cap : q.cap = p.cap
  queue : SameQueue p q

theorem Acquired.inUse_pos {q : Pool ι} (ha : Acquired hasRes p q h) : 0 < q.inUse hasRes := by
  cases hasRes with
  | true => simp [inUse, ha.inuse rfl]
  | false => simp [inUse, ha.size rfl]

theorem sane_init (cap : ℕ) : Sane hasRes (init cap : Pool ι) := by
  constructor <;> simp [init, occupiedCap]

theorem Sane.create (hs : Sane true p) (hroom : p.occupiedCap true < p.cap) :
    Sane true p.create := by
  have hnew : p.created + 1 ∉ p.inuse ++ p.unused := fun hmem => by
    have := hs.made _ hmem
    omega
  constructor
  · simp only [occupiedCap, Pool.create, if_true, List.length_cons] at hroom ⊢
    omega
  · have hperm : (p.inuse ++ (p.created + 1) :: p.unused).Perm
        ((p.created + 1) :: (p.inuse ++ p.unused)) := List.perm_middle
    exact hperm.nodup_iff.2 (List.nodup_cons.2 ⟨hnew, hs.nodup⟩)
  · intro r hr
    simp only [Pool.create, List.mem_append, List.mem_cons] at hr
    show 0 < r ∧ r ≤ p.created + 1
    rcases hr with hr | rfl | hr
    · have := hs.made r (List.mem_append_left _ hr)
      omega
    · omega
    · have := hs.made r (List.mem_append_right _ hr)
      omega

/-- The first unused resource goes to the front of the ones in use. -/
theorem spliceInuse_spec (hs : Sane true p) (hne : p.unused ≠ []) :
    Sane true p.spliceInuse.1 ∧ Acquired true p p.spliceInuse.1 p.spliceInuse.2 := by
  obtain ⟨r, rest, hu⟩ := List.exists_cons_of_ne_nil hne
  have hperm : (r :: p.inuse ++ rest).Perm (p.inuse ++ r :: rest) := by
    exact List.perm_middle.symm
  have hr : 0 < r := (hs.made r (by simp [hu])).1
  unfold spliceInuse
  rw [hu]
  refine ⟨⟨?_, ?_, ?_⟩, ⟨?_, ?_, ?_, ?_, ?_⟩⟩
  · have := hs.cap
    simp only [occupiedCap, if_true, hu, List.length_cons] at this ⊢
    omega
  · exact hperm.nodup_iff.2 (hu ▸ hs.nodup)
  · intro x hx
    exact hs.made x (hu ▸ hperm.mem_iff.1 hx)
  · simp [Holder.valid, Nat.pos_iff_ne_zero.1 hr]
  · exact fun _ => rfl
  · simp
  · rfl
  · exact ⟨rfl, rfl, rfl⟩

theorem tryAcquire_spec (hs : Sane hasRes p) :
    p.tryAcquire hasRes = (p, .empty) ∧ p.cap ≤ p.inUse hasRes ∨
      Sane hasRes (p.tryAcquire hasRes).1 ∧
        Acquired hasRes p (p.tryAcquire hasRes).1 (p.tryAcquire hasRes).2 := by
  cases hasRes with
  | false =>
    unfold tryAcquire
    rw [if_neg (by simp)]
    by_cases hroom : p.size < p.cap
    · rw [if_pos hroom]
      refine .inr ⟨⟨?_, hs.nodup, hs.made⟩, ⟨?_, ?_, ?_, rfl, rfl, rfl, rfl⟩⟩
      · simpa [occupiedCap] using Nat.succ_le_of_lt hroom
      · simp [Holder.valid]
      · simp
      · exact fun _ => rfl
    · rw [if_neg hroom]
      exact .inl ⟨rfl, by simpa [inUse] using hroom⟩
  | true =>
    unfold tryAcquire
    rw [if_pos rfl]
    by_cases hu : p.unused = []
    · rw [if_pos (by simp [hu])]
      by_cases hroom : p.inuse.length < p.cap
      · rw [if_pos hroom]
        have hcreate := hs.create (by simpa [occupiedCap, hu] using hroom)
        obtain ⟨hsane, hacq⟩ := spliceInuse_spec hcreate (by simp [create])
        exact .inr ⟨hsane, ⟨hacq.valid, hacq.inuse, hacq.size, hacq.cap, ⟨hacq.queue.awaiterQueue,
          hacq.queue.awaiters, hacq.queue.idSeq⟩⟩⟩
      · rw [if_neg hroom]
        exact .inl ⟨rfl, by simpa [inUse] using hroom⟩
    · rw [if_neg (by simpa using hu)]
      exact .inr (spliceInuse_spec hs hu)

/-- Nothing but the queue has changed. -/
structure SameRes (p q : Pool ι) : Prop where
  cap : q.cap = p.cap
  size : q.size = p.size
  inuse : q.inuse = p.inuse
  unused : q.unused = p.unused
  created : q.created = p.created

theorem SameRes.sane {q : Pool ι} (h : SameRes p q) (hs : Sane hasRes p) : Sane hasRes q := by
  constructor
  · simpa [occupiedCap, h.cap, h.size, h.inuse, h.unused] using hs.cap
  · simpa [h.inuse, h.unused] using hs.nodup
  · simpa [h.inuse, h.unused, h.created] using hs.made

theorem addAwaiter_sameRes (w : ι) (addr : ℕ) : SameRes p (p.addAwaiter w addr).1 :=
  ⟨rfl, rfl, rfl, rfl, rfl⟩

theorem removeAwaiter_sameRes (id : Id) : SameRes p (p.removeAwaiter id).1 := by
  unfold removeAwaiter
  split <;> exact ⟨rfl, rfl, rfl, rfl, rfl⟩

theorem Sane.clearUnused (hs : Sane hasRes p) : Sane hasRes p.clearUnused := by
  constructor
  · refine le_trans ?_ hs.cap
    cases hasRes <;> simp [occupiedCap, Pool.clearUnused]
  · simpa [Pool.clearUnused] using hs.nodup.of_append_left
  · intro r hr
    exact hs.made r (List.mem_append_left _ (by simpa [Pool.clearUnused] using hr))

theorem Sane.reserve (hs : Sane hasRes p) (n : ℕ) : Sane hasRes (p.reserve hasRes n) := by
  unfold Pool.reserve
  split
  · next hn => exact ⟨hn.le, hs.nodup, hs.made⟩
  · exact hs

theorem Sane.createN (n : ℕ) (hs : Sane true p) (hroom : p.occupiedCap true + n ≤ p.cap) :
    Sane true (createN n p) := by
  induction n generalizing p with
  | zero => exact hs
  | succ n ih =>
    refine ih (hs.create (by omega)) ?_
    simp only [occupiedCap, Pool.create, if_true, List.length_cons] at hroom ⊢
    omega

theorem createN_inuse (n : ℕ) (p : Pool ι) :
    (createN n p).inuse = p.inuse ∧ SameQueue p (createN n p) ∧ (createN n p).cap = p.cap := by
  induction n generalizing p with
  | zero => exact ⟨rfl, ⟨rfl, rfl, rfl⟩, rfl⟩
  | succ n ih =>
    obtain ⟨hinuse, hqueue, hcap⟩ := ih p.create
    exact ⟨hinuse, ⟨hqueue.awaiterQueue, hqueue.awaiters, hqueue.idSeq⟩, hcap⟩

/-- `m` is what the resources in use are known by: the nodes themselves, or only as many. -/
def Counts (hasRes : Bool) (m : Multiset ℕ) (p : Pool ι) : Prop :=
  if hasRes then m = ↑p.inuse else Multiset.card m = p.size

theorem Counts.congr {m : Multiset ℕ} {q : Pool ι} (hc : Counts hasRes m p)
    (hinuse : q.inuse = p.inuse) (hsize : q.size = p.size) : Counts hasRes m q := by
  simpa [Counts, hinuse, hsize] using hc

theorem Counts.card {m : Multiset ℕ} (hc : Counts hasRes m p) :
    Multiset.card m = p.inUse hasRes := by
  cases hasRes with
  | true =>
    have hm : m = ↑p.inuse := by simpa [Counts] using hc
    simp [hm, inUse]
  | false => simpa [Counts, inUse] using hc

end Pool

/-- The iterator of a valid holder. -/
def Holder.token (h : Holder) : Multiset ℕ := if h.valid then {h.it} else 0

@[simp] theorem Holder.token_empty : Holder.empty.token = 0 := rfl

theorem Holder.token_of_valid (hv : h.valid = true) : h.token = {h.it} := if_pos hv

@[simp] theorem Holder.token_movedFrom : h.movedFrom.token = 0 := by
  simp [token, movedFrom, valid]

theorem Holder.pos_of_mem_token {t : ℕ} (ht : t ∈ h.token) : 0 < t := by
  unfold Holder.token at ht
  split at ht
  · next hv =>
    obtain rfl := Multiset.mem_singleton.1 ht
    simp only [Holder.valid, Bool.and_eq_true, bne_iff_ne] at hv
    exact Nat.pos_of_ne_zero hv.2
  · simp at ht

namespace Pool

theorem Counts.acquired {m : Multiset ℕ} {q : Pool ι} (hc : Counts hasRes m p)
    (ha : Acquired hasRes p q h) : Counts hasRes (m + h.token) q := by
  rw [h.token_of_valid ha.valid]
  cases hasRes with
  | true =>
    have hm : m = ↑p.inuse := by simpa [Counts] using hc
    rw [Counts, if_pos rfl, hm, ha.inuse rfl, ← Multiset.cons_coe, add_comm,
      Multiset.singleton_add]
  | false =>
    have hm : Multiset.card m = p.size := by simpa [Counts] using hc
    simp [Counts, hm, ha.size rfl]

/-- What `recycle` does to the resources: nothing when an awaiter takes over, else the
resource goes back. -/
theorem recycle_spec (getId : ι → Id) {it : ℕ} {m : Multiset ℕ} (hs : Sane hasRes p)
    (hc : Counts hasRes m p) (hit : it ∈ m) :
    Sane hasRes (p.recycle hasRes getId it).1 ∧
      Counts hasRes (if (p.recycle hasRes getId it).2.isSome then m else m.erase it)
        (p.recycle hasRes getId it).1 := by
  unfold recycle
  cases hpop : popLive p.awaiterQueue with
  | some r => exact ⟨⟨hs.cap, hs.nodup, hs.made⟩, hc⟩
  | none =>
    cases hasRes with
    | true =>
      have hm : m = ↑p.inuse := by simpa [Counts] using hc
      have hmem : it ∈ p.inuse := by simpa [hm] using hit
      have hperm : (p.inuse.erase it ++ it :: p.unused).Perm (p.inuse ++ p.unused) := by
        refine List.perm_middle.trans ?_
        exact (List.perm_cons_erase hmem).symm.append_right p.unused
      refine ⟨⟨?_, hperm.nodup_iff.2 hs.nodup, fun r hr => hs.made r (hperm.mem_iff.1 hr)⟩, ?_⟩
      · have hlen := hperm.length_eq
        have := hs.cap
        simp only [occupiedCap, if_true, List.length_append, List.length_cons] at hlen this ⊢
        omega
      · simp [Counts, hm]
    | false =>
      have hm : Multiset.card m = p.size := by simpa [Counts] using hc
      refine ⟨⟨?_, hs.nodup, hs.made⟩, ?_⟩
      · have := hs.cap
        simp only [occupiedCap, Bool.false_eq_true, if_false] at this ⊢
        omega
      · simp [Counts, hm, Multiset.card_erase_of_mem hit]

end Pool

/-- The iterators the valid holders have. -/
def held (l : List Holder) : Multiset ℕ := (l.map Holder.token).sum

@[simp] theorem held_nil : held [] = 0 := rfl

@[simp] theorem held_append (l : List Holder) : held (l ++ [h]) = held l + h.token := by
  simp [held]

theorem held_set {l : List Holder} {k : ℕ} {a : Holder} (ha : l[k]? = some a) (b : Holder) :
    held (l.set k b) + a.token = held l + b.token := by
  induction l generalizing k with
  | nil => simp at ha
  | cons c l ih =>
    cases k with
    | zero =>
      obtain rfl : c = a := by simpa using ha
      simp only [held, List.set_cons_zero, List.map_cons, List.sum_cons]
      rw [add_comm, add_comm b.token, ← add_assoc]
    | succ k =>
      have hl := ih (k := k) (by simpa using ha)
      simp only [held, List.set_cons_succ, List.map_cons, List.sum_cons] at hl ⊢
      rw [add_assoc, hl, add_assoc]

/-- Exchanging two holders leaves the iterators held as they were, also for `j = k`. -/
theorem held_swap {l : List Holder} {j k : ℕ} {a b : Holder} (ha : l[j]? = some a)
    (hb : l[k]? = some b) : held ((l.set j b).set k a) = held l := by
  have hk : (l.set j b)[k]? = some b := by
    by_cases hjk : j = k
    · subst hjk
      have hlt : j < l.length := (List.getElem?_eq_some_iff.1 ha).1
      simp [hlt]
    · rw [List.getElem?_set_ne hjk, hb]
  have hswap := held_set hk a
  rw [held_set ha b] at hswap
  exact add_right_cancel hswap

/-- The iterators on their way: recycles in progress and awaiters still to be resumed. -/
def State.busy (s : State ι) : Multiset ℕ :=
  ↑s.recycling + ↑(s.completing.map Prod.snd) + ↑(s.posted.map Prod.snd)

/-- All that answers for a resource in use. -/
def State.owners (s : State ι) : Multiset ℕ := held s.holders + s.busy

theorem coe_erase_add {l : List ℕ} {t : ℕ} (ht : t ∈ l) :
    (↑(l.erase t) : Multiset ℕ) + {t} = ↑l := by
  rw [← Multiset.coe_erase, add_comm, Multiset.singleton_add, Multiset.cons_erase ht]

theorem coe_map_erase_add [DecidableEq ι] {l : List (ι × ℕ)} {i : ι} {t : ℕ} (ht : (i, t) ∈ l) :
    (↑((l.erase (i, t)).map Prod.snd) : Multiset ℕ) + {t} = ↑(l.map Prod.snd) := by
  have hperm := (List.perm_cons_erase ht).map Prod.snd
  rw [Multiset.coe_eq_coe.2 hperm, List.map_cons, ← Multiset.cons_coe, add_comm,
    Multiset.singleton_add]

/-- Every resource in use has exactly one owner. -/
structure Conserved (hasRes : Bool) (s : State ι) : Prop where
  sane : s.pool.Sane hasRes
  counts : s.pool.Counts hasRes s.owners
  pos : ∀ t ∈ s.owners, 0 < t

theorem conserved_init (cap : ℕ) : Conserved hasRes (State.init cap : State ι) := by
  have howners : (State.init cap : State ι).owners = 0 := rfl
  constructor
  · exact Pool.sane_init cap
  · rw [howners]
    cases hasRes <;> simp [Pool.Counts, State.init, Pool.init]
  · simp [howners]

variable {s t : State ι}

/-- A step that passes iterators on between owners. -/
theorem Conserved.pass {q : Pool ι} (hs : Conserved hasRes s) (ht : t.pool = q)
    (hq : Pool.SameRes s.pool q) (ho : t.owners = s.owners) : Conserved hasRes t := by
  subst ht
  exact ⟨hq.sane hs.sane, ho ▸ hs.counts.congr hq.inuse hq.size, ho ▸ hs.pos⟩

theorem Conserved.acquired {q : Pool ι} (hs : Conserved hasRes s) (ht : t.pool = q)
    (hsane : q.Sane hasRes) (ha : Pool.Acquired hasRes s.pool q h)
    (ho : t.owners = s.owners + h.token) : Conserved hasRes t := by
  subst ht
  refine ⟨hsane, ho ▸ hs.counts.acquired ha, ?_⟩
  rw [ho]
  intro x hx
  rcases Multiset.mem_add.1 hx with hx | hx
  · exact hs.pos x hx
  · exact Holder.pos_of_mem_token hx

theorem owners_addHolder (s : State ι) : (s.addHolder h).owners = s.owners + h.token := by
  simp only [State.owners, State.busy, State.addHolder, held_append]
  abel

theorem Conserved.tryAcquire (hs : Conserved hasRes s) (ht : t.pool = (s.pool.tryAcquire hasRes).1)
    (ho : t.owners = s.owners + (s.pool.tryAcquire hasRes).2.token) : Conserved hasRes t := by
  rcases Pool.tryAcquire_spec hs.sane with ⟨heq, _⟩ | ⟨hsane, hacq⟩
  · rw [heq] at ht ho
    exact hs.pass ht ⟨rfl, rfl, rfl, rfl, rfl⟩ (by simpa using ho)
  · exact hs.acquired ht hsane hacq ho

/-- `create_all` makes unused resources only, as many as there is room for. -/
theorem Conserved.createAll (hs : Conserved true s) :
    Conserved true { s with pool := s.pool.createAll } := by
  refine ⟨hs.sane.createN _ ?_, ?_, hs.pos⟩
  · have := hs.sane.cap
    omega
  · have hinuse := (Pool.createN_inuse (s.pool.cap - s.pool.occupiedCap true) s.pool).1
    have hm : s.owners = ↑s.pool.inuse := by simpa [Pool.Counts] using hs.counts
    rw [Pool.Counts, if_pos rfl]
    show s.owners = ↑(Pool.createN _ s.pool).inuse
    rw [hinuse, hm]

section Steps

variable [DecidableEq ι] {opts : ι → Options} {i : ι} {it : ℕ}

theorem Conserved.acquire {o : Options} {addr : ℕ} {stopRequested : Bool}
    (hs : Conserved hasRes s) (h : s.acquire hasRes o i addr stopRequested = some t) :
    Conserved hasRes t := by
  unfold State.acquire at h
  split at h
  · cases h
    exact hs.pass rfl ⟨rfl, rfl, rfl, rfl, rfl⟩ rfl
  · rcases Pool.tryAcquire_spec hs.sane with ⟨heq, _⟩ | ⟨hsane, hacq⟩
    · simp only [heq] at h
      split at h
      · next hv => simp [Holder.valid, Holder.empty] at hv
      · split at h
        · cases h
        · cases h
          exact hs.pass rfl (Pool.addAwaiter_sameRes i addr) rfl
    · simp only [hacq.valid, if_true] at h
      cases h
      exact hs.acquired rfl hsane hacq (owners_addHolder _)

theorem Conserved.recycleLocked (hs : Conserved hasRes s) (hit : it ∈ s.recycling) :
    Conserved hasRes (s.recycleLocked hasRes it) := by
  have hmem : it ∈ s.owners := by
    simp [State.owners, State.busy, hit]
  obtain ⟨hsane, hcounts⟩ :=
    Pool.recycle_spec (fun i => (s.waiters i).getId) hs.sane hs.counts hmem
  unfold State.recycleLocked
  cases hw : (s.pool.recycle hasRes (fun i => (s.waiters i).getId) it).2 with
  | none =>
    simp only [hw, Option.isSome_none, Bool.false_eq_true, if_false] at hcounts ⊢
    have ho : it ::ₘ (held s.holders +
        (↑(s.recycling.erase it) + ↑(s.completing.map Prod.snd) + ↑(s.posted.map Prod.snd))) =
          s.owners := by
      rw [State.owners, State.busy, ← coe_erase_add hit, ← Multiset.singleton_add]
      abel
    rw [← ho, Multiset.erase_cons_head] at hcounts
    refine ⟨hsane, hcounts, fun x hx => hs.pos x ?_⟩
    rw [← ho]
    exact Multiset.mem_cons_of_mem hx
  | some i =>
    simp only [hw, Option.isSome_some, if_true] at hcounts ⊢
    have ho : held s.holders + (↑(s.recycling.erase it) +
        ↑(((i, it) :: s.completing).map Prod.snd) + ↑(s.posted.map Prod.snd)) = s.owners := by
      rw [State.owners, State.busy, ← coe_erase_add hit, List.map_cons, ← Multiset.cons_coe,
        ← Multiset.singleton_add]
      abel
    rw [← ho] at hcounts
    exact ⟨hsane, hcounts, fun x hx => hs.pos x (ho ▸ hx)⟩

theorem Conserved.giveUp {cause : Cause} (hs : Conserved hasRes s) :
    Conserved hasRes (s.giveUp cause i) := by
  unfold State.giveUp
  show Conserved hasRes (if (s.pool.removeAwaiter (s.waiters i).getId).2 = true then _ else s)
  split
  · exact hs.pass rfl (Pool.removeAwaiter_sameRes (s.waiters i).getId) rfl
  · exact hs

theorem conserved_step {e : Event ι} (hs : Conserved hasRes s)
    (h : step hasRes opts s e = some t) : Conserved hasRes t := by
  cases e with
  | tryAcquire =>
    cases h
    exact hs.tryAcquire rfl (owners_addHolder _)
  | acquire i addr stopRequested =>
    obtain ⟨-, h⟩ := Option.ite_none_left_eq_some.1 h
    exact hs.acquire h
  | recycle k =>
    simp only [step] at h
    split at h
    · cases h
    · next a ha =>
      split at h
      · next hv =>
        cases h
        refine hs.pass rfl ⟨rfl, rfl, rfl, rfl, rfl⟩ ?_
        have hset := held_set ha .empty
        rw [Holder.token_empty, add_zero, Holder.token_of_valid hv] at hset
        simp only [State.owners, State.busy, ← hset, ← Multiset.cons_coe,
          ← Multiset.singleton_add]
        abel
      · cases h
        exact hs
  | recycleLocked it =>
    obtain ⟨hit, h⟩ := Option.ite_none_right_eq_some.1 h
    cases h
    exact hs.recycleLocked hit
  | complete i it =>
    obtain ⟨hit, h⟩ := Option.ite_none_right_eq_some.1 h
    cases h
    refine hs.pass rfl ⟨rfl, rfl, rfl, rfl, rfl⟩ ?_
    simp only [State.owners, State.busy, ← coe_map_erase_add hit, List.map_cons,
      ← Multiset.cons_coe, ← Multiset.singleton_add]
    abel
  | resume i it =>
    obtain ⟨hit, h⟩ := Option.ite_none_right_eq_some.1 h
    cases h
    refine hs.pass rfl ⟨rfl, rfl, rfl, rfl, rfl⟩ ?_
    have hpos : 0 < it := hs.pos it (by
      simp only [State.owners, State.busy, ← coe_map_erase_add hit]
      simp)
    have hv : (Holder.mk true it).valid = true := by simp [Holder.valid, hpos.ne']
    rw [owners_addHolder, Holder.token_of_valid hv]
    simp only [State.owners, State.busy, State.setWaiter, ← coe_map_erase_add hit]
    abel
  | timeout i =>
    obtain ⟨-, h⟩ := Option.ite_none_right_eq_some.1 h
    cases h
    exact (hs.pass (t := s.setWaiter i { s.waiters i with timer := false }) rfl
      ⟨rfl, rfl, rfl, rfl, rfl⟩ rfl).giveUp
  | stop i =>
    obtain ⟨-, h⟩ := Option.ite_none_right_eq_some.1 h
    cases h
    exact (hs.pass (t := s.setWaiter i { s.waiters i with stopCb := false }) rfl
      ⟨rfl, rfl, rfl, rfl, rfl⟩ rfl).giveUp
  | newHolder =>
    cases h
    exact hs.pass rfl ⟨rfl, rfl, rfl, rfl, rfl⟩ (by simp [owners_addHolder])
  | moveConstruct k =>
    simp only [step] at h
    split at h
    · cases h
    · next a ha =>
      cases h
      refine hs.pass rfl ⟨rfl, rfl, rfl, rfl, rfl⟩ ?_
      have hset := held_set ha a.movedFrom
      rw [Holder.token_movedFrom, add_zero] at hset
      rw [owners_addHolder]
      simp only [State.owners, State.busy, ← hset]
      abel
  | moveAssign j k =>
    simp only [step] at h
    split at h
    · next a b ha hb =>
      cases h
      refine hs.pass rfl ⟨rfl, rfl, rfl, rfl, rfl⟩ ?_
      show held ((s.holders.set j b).set k a) + s.busy = held s.holders + s.busy
      rw [held_swap ha hb]
    · cases h
  | clearUnused =>
    obtain ⟨-, h⟩ := Option.ite_none_right_eq_some.1 h
    cases h
    exact ⟨hs.sane.clearUnused, hs.counts.congr rfl rfl, hs.pos⟩
  | reserve n =>
    cases h
    refine ⟨hs.sane.reserve n, hs.counts.congr ?_ ?_, hs.pos⟩ <;>
      (unfold Pool.reserve; split <;> rfl)
  | reserveBy scaled maxCap =>
    cases h
    cases scaled with
    | none => exact hs
    | some n =>
      refine ⟨hs.sane.reserve _, hs.counts.congr ?_ ?_, hs.pos⟩ <;>
        (unfold Pool.reserveBy Pool.reserve; dsimp only; split <;> rfl)
  | createAll =>
    obtain ⟨hr, h⟩ := Option.ite_none_right_eq_some.1 h
    cases h
    subst hr
    exact hs.createAll

/-- Capacity and ownership. In every reachable state the pool keeps within its capacity and
each resource in use has exactly one owner; without resources the counter counts the owners. -/
theorem owners_conserved (hasRes : Bool) (opts : ι → Options) (cap : ℕ) (es : List (Event ι))
    (s : State ι) (h : Steps.run (step hasRes opts) (.init cap) es = some s) :
    s.pool.occupiedCap hasRes ≤ s.pool.cap ∧
      (hasRes = true → s.owners = ↑s.pool.inuse ∧ (s.pool.inuse ++ s.pool.unused).Nodup) ∧
      (hasRes = false → Multiset.card s.owners = s.pool.size) := by
  have hs : Conserved hasRes s :=
    Steps.invariant_of_step (fun _ _ _ hs ht => conserved_step hs ht) (conserved_init cap) h
  refine ⟨hs.sane.cap, fun hr => ⟨?_, hs.sane.nodup⟩, fun hr => ?_⟩
  · simpa [Pool.Counts, hr] using hs.counts
  · simpa [Pool.Counts, hr] using hs.counts

/-- A resource handed over to a waiter, which holds it in the end. -/
theorem owners_conserved_handOver :
    ∃ s : State ℕ, s.owners = {1} ∧
      s.pool.occupiedCap true ≤ s.pool.cap ∧
      (true = true → s.owners = ↑s.pool.inuse ∧ (s.pool.inuse ++ s.pool.unused).Nodup) ∧
      (true = false → Multiset.card s.owners = s.pool.size) :=
  ⟨_, by decide, owners_conserved true (fun _ => ⟨true, true⟩) 1
    [.tryAcquire, .acquire 0 0 false, .recycle 0, .recycleLocked 1, .complete 0 1, .resume 0 1]
    _ rfl⟩

end Steps

end Jkl.Async.ResPool
