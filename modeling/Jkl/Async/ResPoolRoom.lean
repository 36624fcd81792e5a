import Jkl.Async.ResPoolQueue

/-! Room in a `res_pool` with waiters in its queue: only `recycle` serves them, so a capacity
that grows while one waits is given to whoever comes next. -/
namespace Jkl.Async.ResPool

variable {ι : Type*} {hasRes : Bool} {opts : ι → Options}

open Pool

namespace Pool

/-- No resource is unused, and the ones in use fill the capacity. -/
structure Full (hasRes : Bool) (p : Pool ι) : Prop where
  unused : hasRes = true → p.unused = []
  inUse : p.cap ≤ p.inUse hasRes

/-- A waiter in the queue has no room before it. -/
def NoRoom (hasRes : Bool) (p : Pool ι) : Prop := live p.awaiterQueue ≠ [] → p.Full hasRes

variable {p q : Pool ι}

theorem noRoom_init (cap : ℕ) : NoRoom hasRes (init cap : Pool ι) := fun h => absurd rfl h

theorem Full.occupiedCap (hf : p.Full hasRes) : p.cap ≤ p.occupiedCap hasRes := by
  have := hf.inUse
  cases hasRes with
  | true => simpa [Pool.occupiedCap, hf.unused rfl, Pool.inUse] using this
  | false => simpa [Pool.occupiedCap, Pool.inUse] using this

theorem Full.tryAcquire (hf : p.Full hasRes) : p.tryAcquire hasRes = (p, .empty) := by
  have := hf.inUse
  cases hasRes with
  | true =>
    have hlt : ¬ p.inuse.length < p.cap := by simpa [Pool.inUse] using this
    simp [Pool.tryAcquire, hf.unused rfl, hlt]
  | false =>
    have hlt : ¬ p.size < p.cap := by simpa [Pool.inUse] using this
    simp [Pool.tryAcquire, hlt]

theorem Sane.full (hs : p.Sane hasRes) (h : p.cap ≤ p.inUse hasRes) : p.Full hasRes := by
  refine ⟨?_, h⟩
  rintro rfl
  have hcap := hs.cap
  simp only [Pool.occupiedCap, Pool.inUse, if_true] at hcap h
  exact List.eq_nil_of_length_eq_zero (by omega)

/-- Nobody joins the queue, and the resources stay where they are. -/
theorem NoRoom.same (hp : NoRoom hasRes p) (hr : SameRes p q)
    (hl : (live q.awaiterQueue).Sublist (live p.awaiterQueue)) : NoRoom hasRes q := by
  intro hq
  have hne : live p.awaiterQueue ≠ [] := by
    rintro hnil
    rw [hnil] at hl
    exact hq (List.sublist_nil.1 hl)
  obtain ⟨hunused, huse⟩ := hp hne
  refine ⟨fun h => hr.unused ▸ hunused h, ?_⟩
  simpa only [Pool.inUse, hr.cap, hr.inuse, hr.size] using huse

theorem NoRoom.removeAwaiter (hp : NoRoom hasRes p) (id : Id) :
    NoRoom hasRes (p.removeAwaiter id).1 := by
  refine hp.same (removeAwaiter_sameRes id) ?_
  unfold Pool.removeAwaiter
  split
  · exact live_setNull_sublist _ _
  · exact List.Sublist.refl _

/-- `recycle` gives the resource to the waiter at the front; without one it is unused, and
nobody waits for it. -/
theorem NoRoom.recycle (hp : NoRoom hasRes p) (getId : ι → Id) (it : ℕ) :
    NoRoom hasRes (p.recycle hasRes getId it).1 := by
  unfold Pool.recycle
  split
  next hpop =>
    cases hasRes <;> exact fun h => absurd rfl h
  next w r hpop =>
    obtain ⟨nulls, a, hq, hn⟩ := popLive_eq_some hpop
    refine hp.same ⟨rfl, rfl, rfl, rfl, rfl⟩ ?_
    rw [hq, live_pop hn]
    exact List.sublist_cons_self _ _

theorem NoRoom.tryAcquire (hp : NoRoom hasRes p) (hs : p.Sane hasRes) :
    NoRoom hasRes (p.tryAcquire hasRes).1 := by
  rcases tryAcquire_spec hs with ⟨heq, -⟩ | ⟨-, hacq⟩
  · rwa [heq]
  · intro hq
    rw [hacq.queue.awaiterQueue] at hq
    -- a full pool gives nothing away
    have := hacq.valid
    rw [(hp hq).tryAcquire] at this
    cases this

theorem NoRoom.clearUnused (hp : NoRoom hasRes p) : NoRoom hasRes p.clearUnused :=
  fun hq => ⟨fun _ => rfl, (hp hq).inUse⟩

theorem NoRoom.createAll (hp : NoRoom true p) : NoRoom true p.createAll := by
  have hqueue (n : ℕ) (p : Pool ι) : (createN n p).awaiterQueue = p.awaiterQueue := by
    induction n generalizing p with
    | zero => rfl
    | succ n ih => exact ih p.create
  intro hq
  have hf : p.Full true := hp (by rwa [Pool.createAll, hqueue] at hq)
  have hzero : p.cap - p.occupiedCap true = 0 := Nat.sub_eq_zero_of_le hf.occupiedCap
  rw [Pool.createAll, hzero]
  exact hf

/-- The new capacity exceeds what is occupied. -/
def Grows (hasRes : Bool) (p : Pool ι) (n : ℕ) : Prop := p.occupiedCap hasRes < n

theorem NoRoom.reserve {n : ℕ} (hp : NoRoom hasRes p)
    (hn : live p.awaiterQueue ≠ [] → ¬ p.Grows hasRes n) : NoRoom hasRes (p.reserve hasRes n) := by
  unfold Pool.reserve
  split_ifs with hgt
  · exact fun hq => absurd hgt (hn hq)
  · exact hp

theorem not_noRoom_reserve {n : ℕ} (hp : NoRoom hasRes p) (hq : live p.awaiterQueue ≠ [])
    (hn : p.Grows hasRes n) : ¬ NoRoom hasRes (p.reserve hasRes n) := by
  intro h
  have hgt : n > p.occupiedCap hasRes := hn
  rw [Pool.reserve, if_pos hgt] at h
  have huse : n ≤ p.inUse hasRes := (h hq).inUse
  have hocc : p.inUse hasRes ≤ p.occupiedCap hasRes := by
    cases hasRes <;> simp [Pool.inUse, Pool.occupiedCap]
  omega

end Pool

variable [DecidableEq ι] {s t : State ι} {e : Event ι}

/-- Somebody who comes now gets a resource although a waiter is in the queue. -/
def Barges (s t : State ι) : Event ι → Prop
  | .tryAcquire | .acquire _ _ _ =>
    live s.pool.awaiterQueue ≠ [] ∧ ∃ h, h.valid = true ∧ t.holders = s.holders ++ [h]
  | _ => False

/-- A new capacity makes room while a waiter is in the queue. -/
def MakesRoom (hasRes : Bool) (s : State ι) : Event ι → Prop
  | .reserve n => live s.pool.awaiterQueue ≠ [] ∧ s.pool.Grows hasRes n
  | .reserveBy (some n) maxCap =>
    live s.pool.awaiterQueue ≠ [] ∧ s.pool.Grows hasRes (min maxCap n)
  | _ => False

theorem noRoom_acquire {o : Options} {i : ι} {addr : ℕ} {stopRequested : Bool}
    (hs : Conserved hasRes s) (hp : s.pool.NoRoom hasRes)
    (h : s.acquire hasRes o i addr stopRequested = some t) : t.pool.NoRoom hasRes := by
  unfold State.acquire at h
  dsimp only at h
  split at h
  · cases h
    exact hp
  · rcases tryAcquire_spec hs.sane with ⟨heq, hcap⟩ | ⟨hsane, hacq⟩
    · simp only [heq] at h
      split at h
      · next hv => simp [Holder.valid, Holder.empty] at hv
      · split at h
        · cases h
        · cases h
          exact fun _ => ⟨(hs.sane.full hcap).unused, hcap⟩
    · simp only [hacq.valid, if_true] at h
      cases h
      exact hp.tryAcquire hs.sane

theorem noRoom_giveUp {c : Cause} {i : ι} (hp : s.pool.NoRoom hasRes) :
    (s.giveUp c i).pool.NoRoom hasRes := by
  unfold State.giveUp
  dsimp only
  split
  · exact hp.removeAwaiter _
  · exact hp

theorem noRoom_step (hs : Conserved hasRes s) (hp : s.pool.NoRoom hasRes)
    (h : step hasRes opts s e = some t) (hm : ¬ MakesRoom hasRes s e) :
    t.pool.NoRoom hasRes := by
  cases e with
  | tryAcquire =>
    cases h
    exact hp.tryAcquire hs.sane
  | acquire i addr stopRequested =>
    obtain ⟨-, h⟩ := Option.ite_none_left_eq_some.1 h
    exact noRoom_acquire hs hp h
  | recycle k =>
    simp only [step] at h
    split at h
    · cases h
    · split at h <;> cases h <;> exact hp
  | recycleLocked it =>
    obtain ⟨-, h⟩ := Option.ite_none_right_eq_some.1 h
    cases h
    have := hp.recycle (fun i => (s.waiters i).getId) it
    unfold State.recycleLocked
    dsimp only
    split <;> exact this
  | complete i it =>
    obtain ⟨-, h⟩ := Option.ite_none_right_eq_some.1 h
    cases h
    exact hp
  | resume i it =>
    obtain ⟨-, h⟩ := Option.ite_none_right_eq_some.1 h
    cases h
    exact hp
  | timeout i =>
    obtain ⟨-, h⟩ := Option.ite_none_right_eq_some.1 h
    cases h
    exact noRoom_giveUp hp
  | stop i =>
    obtain ⟨-, h⟩ := Option.ite_none_right_eq_some.1 h
    cases h
    exact noRoom_giveUp hp
  | newHolder =>
    cases h
    exact hp
  | moveConstruct k =>
    simp only [step] at h
    split at h <;> cases h
    exact hp
  | moveAssign j k =>
    simp only [step] at h
    split at h <;> cases h
    exact hp
  | clearUnused =>
    obtain ⟨-, h⟩ := Option.ite_none_right_eq_some.1 h
    cases h
    exact hp.clearUnused
  | reserve n =>
    cases h
    exact hp.reserve fun hq hg => hm ⟨hq, hg⟩
  | reserveBy scaled maxCap =>
    cases h
    cases scaled with
    | none => exact hp
    | some n => exact hp.reserve fun hq hg => hm ⟨hq, hg⟩
  | createAll =>
    obtain ⟨rfl, h⟩ := Option.ite_none_right_eq_some.1 h
    cases h
    exact hp.createAll

/-- Before a full pool nobody gets past the queue. -/
theorem not_barges (hp : s.pool.NoRoom hasRes) (h : step hasRes opts s e = some t) :
    ¬ Barges s t e := by
  cases e with
  | tryAcquire =>
    rintro ⟨hq, x, hx, hholders⟩
    simp only [step, (hp hq).tryAcquire, Option.some.injEq] at h
    subst h
    have hlast := List.append_cancel_left hholders
    obtain rfl : Holder.empty = x := by simpa using hlast
    cases hx
  | acquire i addr stopRequested =>
    rintro ⟨hq, x, hx, hholders⟩
    obtain ⟨-, h⟩ := Option.ite_none_left_eq_some.1 h
    have hsame : t.holders = s.holders := by
      unfold State.acquire at h
      simp only [(hp hq).tryAcquire] at h
      split at h
      · cases h
        rfl
      · split at h
        · next hv => simp [Holder.valid, Holder.empty] at hv
        · split at h
          · cases h
          · cases h
            rfl
    have hlen := congrArg List.length (hsame.symm.trans hholders)
    simp at hlen
  | _ => exact id

theorem not_noRoom_step (hp : s.pool.NoRoom hasRes) (h : step hasRes opts s e = some t)
    (hm : MakesRoom hasRes s e) : ¬ t.pool.NoRoom hasRes := by
  cases e with
  | reserve n =>
    cases h
    exact not_noRoom_reserve hp hm.1 hm.2
  | reserveBy scaled maxCap =>
    cases scaled with
    | none => exact hm.elim
    | some n =>
      cases h
      exact not_noRoom_reserve hp hm.1 hm.2
  | _ => exact hm.elim

/-- No waiter is left behind free room, and nobody gets past the queue, in exactly the runs in
which the capacity does not grow past the occupied one while a waiter is in the queue. -/
theorem each_noRoom_iff (hasRes : Bool) (opts : ι → Options) (cap : ℕ) (es : List (Event ι)) :
    Steps.Each (step hasRes opts) (fun s e t => t.pool.NoRoom hasRes ∧ ¬ Barges s t e)
        (State.init cap) es ↔
      Steps.Each (step hasRes opts) (fun s e _ => ¬ MakesRoom hasRes s e) (State.init cap) es := by
  refine Steps.each_iff_each (I := fun s => Conserved hasRes s ∧ s.pool.NoRoom hasRes) ?_ ?_
    ⟨conserved_init cap, noRoom_init cap⟩
  · intro s e t hs h
    constructor
    · rintro ⟨hp, -⟩ hm
      exact not_noRoom_step hs.2 h hm hp
    · intro hm
      exact ⟨noRoom_step hs.1 hs.2 h hm, not_barges hs.2 h⟩
  · intro s e t hs h hm
    exact ⟨conserved_step hs.1 h, noRoom_step hs.1 hs.2 h hm⟩

/-- One resource in use, one waiter, and then a capacity of two. -/
theorem not_each_noRoom : ¬ Steps.Each (step false fun _ : Fin 1 => ⟨false, false⟩)
    (fun s e t => t.pool.NoRoom false ∧ ¬ Barges s t e) (State.init 1)
    [.tryAcquire, .acquire 0 0 false, .reserve 2] := by
  intro h
  obtain ⟨-, h⟩ := h _ rfl
  obtain ⟨-, h⟩ := h _ rfl
  obtain ⟨⟨hroom, -⟩, -⟩ := h _ rfl
  exact absurd (hroom (by decide)).inUse (by decide)

end Jkl.Async.ResPool
