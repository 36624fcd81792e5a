import Jkl.Async.ResPool
import Jkl.Lib.Ledger
import Jkl.Lib.Run

/-! `res_holder`: the owner of one resource of a pool, for any number of pools and holder objects.
What its members say is compared with a ledger in which every acquisition is a token. -/
namespace Jkl.Async.ResHolder

open ResPool (Pool)

variable {κ π : Type}

/-- `res_iter`: value-initialised, what `invalid_iter()` gives where the pool has resources, or a
resource. -/
inductive Iter (π : Type) where
  | default
  | endOf (q : π)
  | res (r : ℕ)
deriving DecidableEq

/-- `invalid_iter`; without resources it is `0`, as a value-initialised iterator is. -/
def invalidIter (hasRes : Bool) (q : π) : Iter π := if hasRes then .endOf q else .default

/-- The members `_p` and `_it`. -/
structure Holder (π : Type) where
  p : Option π
  it : Iter π

namespace Holder

/-- A default-constructed holder. -/
def empty : Holder π := ⟨none, .default⟩

variable [DecidableEq π]

def valid (hasRes : Bool) (h : Holder π) : Bool :=
  match h.p with
  | none => false
  | some q => h.it ≠ invalidIter hasRes q

end Holder

/-- The holder objects that are alive; the pools, in which nobody waits; the resources acquired and
returned so far; whether a null pool was dereferenced, or something returned that is no resource;
and who owns which acquisition. -/
structure World (κ π : Type) where
  objs : κ → Option (Holder π)
  pools : π → Pool Empty
  acquired : List (π × ℕ)
  returned : List (π × ℕ)
  wild : Bool
  ledger : Ledger κ

inductive Event (κ π : Type) where
  | default (k : κ)
  | acquire (k : κ) (q : π)
  | moveConstruct (k j : κ)
  | moveAssign (k j : κ)
  | recycle (k : κ)
  | destroy (k : κ)

/-- What is to become of the ownership; `got` tells whether an acquisition succeeded. -/
def Event.own [DecidableEq κ] (got : Bool) (l : Ledger κ) : Event κ π → Ledger κ
  | default _ => l
  | acquire k _ => if got then l.issue k else l
  | moveConstruct k j => l.swap j k
  | moveAssign k j => l.swap k j
  | recycle k => l.spend k
  | destroy k => l.spend k

namespace World

def init (cap : π → ℕ) : World κ π :=
  { objs := fun _ => none, pools := fun q => .init (cap q), acquired := [], returned := [],
    wild := false, ledger := .init }

variable [DecidableEq π]

/-- `try_acquire` of a pool. -/
def tryAcquire (hasRes : Bool) (w : World κ π) (q : π) : World κ π × Holder π :=
  let (p, h) := (w.pools q).tryAcquire hasRes
  let w := { w with pools := Function.update w.pools q p }
  if h.p then ({ w with acquired := w.acquired ++ [(q, h.it)] }, ⟨some q, .res h.it⟩)
  else (w, .empty)

/-- `recycle()` of the pool. -/
def poolRecycle (hasRes : Bool) (w : World κ π) (q : π) (it : Iter π) : World κ π :=
  match it with
  | .res r =>
    let p := ((w.pools q).recycle hasRes Empty.elim r).1
    { w with pools := Function.update w.pools q p, returned := w.returned ++ [(q, r)] }
  | _ => { w with wild := true }

/-- `recycle()` of the holder; what it leaves in it. -/
def recycle (hasRes : Bool) (w : World κ π) (h : Holder π) : World κ π × Holder π :=
  match h.p with
  | none => (w, h)
  | some q =>
    if h.valid hasRes then (w.poolRecycle hasRes q h.it, ⟨none, invalidIter hasRes q⟩) else (w, h)

/-- Whether the holder object is alive and valid. -/
def valid (hasRes : Bool) (w : World κ π) (k : κ) : Bool :=
  match w.objs k with
  | none => false
  | some h => h.valid hasRes

variable [DecidableEq κ]

def put (w : World κ π) (k : κ) (h : Option (Holder π)) : World κ π :=
  { w with objs := Function.update w.objs k h }

/-- What the code does; nothing comes after undefined behaviour. -/
def stepCode (hasRes : Bool) (w : World κ π) (e : Event κ π) : Option (World κ π) :=
  if w.wild then none
  else
    match e with
    | .default k =>
      match w.objs k with
      | none => some (w.put k (some .empty))
      | some _ => none
    | .acquire k q =>
      match w.objs k with
      | none =>
        let (w, h) := w.tryAcquire hasRes q
        some (w.put k (some h))
      | some _ => none
    | .moveConstruct k j =>
      match w.objs k, w.objs j with
      | none, some t =>
        match t.p with
        -- `_p->invalid_iter()`
        | none => some { w with wild := true }
        | some q => some ((w.put k (some t)).put j (some { t with it := invalidIter hasRes q }))
      | _, _ => none
    | .moveAssign k j =>
      match w.objs k, w.objs j with
      | some a, some b => some ((w.put k (some b)).put j (some a))
      | _, _ => none
    | .recycle k =>
      match w.objs k with
      | none => none
      | some h =>
        let (w, h) := w.recycle hasRes h
        some (w.put k (some h))
    | .destroy k =>
      match w.objs k with
      | none => none
      | some h => some ((w.recycle hasRes h).1.put k none)

def step (hasRes : Bool) (w : World κ π) (e : Event κ π) : Option (World κ π) :=
  (w.stepCode hasRes e).map fun t =>
    { t with ledger := e.own (w.acquired.length < t.acquired.length) w.ledger }

end World

/-! The members of a holder object say what the ledger says. -/

inductive Rep (hasRes : Bool) (acquired : List (π × ℕ)) : Option (Holder π) → Option ℕ → Prop where
  | dead : Rep hasRes acquired none none
  | unpooled {it : Iter π} : Rep hasRes acquired (some ⟨none, it⟩) none
  | ended {q : π} : Rep hasRes acquired (some ⟨some q, invalidIter hasRes q⟩) none
  | owns {q : π} {r n : ℕ} (h : acquired[n]? = some (q, r)) :
      Rep hasRes acquired (some ⟨some q, .res r⟩) (some n)

variable {hasRes : Bool} {w t : World κ π} {e : Event κ π} {k j : κ} {a b : Holder π} {q : π}
  {acquired : List (π × ℕ)} {x : Option ℕ} {n r : ℕ}

theorem res_ne_invalidIter : (Iter.res r : Iter π) ≠ invalidIter hasRes q := by
  cases hasRes <;> simp [invalidIter]

theorem getElem?_append_of {l m : List (π × ℕ)} {y : π × ℕ} (h : l[n]? = some y) :
    (l ++ m)[n]? = some y := by
  rwa [List.getElem?_append_left (List.getElem?_eq_some_iff.1 h).1]

namespace Rep

theorem mono {o : Option (Holder π)} {l : List (π × ℕ)} (h : Rep hasRes acquired o x) :
    Rep hasRes (acquired ++ l) o x := by
  cases h with
  | dead => exact .dead
  | unpooled => exact .unpooled
  | ended => exact .ended
  | owns h => exact .owns (getElem?_append_of h)

theorem eq_none (h : Rep hasRes acquired none x) : x = none := by
  cases h
  rfl

section

variable [DecidableEq π]

/-- A holder is valid where the ledger has a token for it. -/
theorem valid_iff (h : Rep hasRes acquired (some a) x) :
    a.valid hasRes = true ↔ ∃ n q r, x = some n ∧ acquired[n]? = some (q, r) ∧
      a = ⟨some q, .res r⟩ := by
  cases h with
  | unpooled => simp [Holder.valid]
  | ended => simp [Holder.valid]
  | @owns q r n h =>
    have hvalid : (⟨some q, .res r⟩ : Holder π).valid hasRes = true := by
      simp [Holder.valid, res_ne_invalidIter]
    exact iff_of_true hvalid ⟨n, q, r, rfl, h, rfl⟩

theorem recycle_none (h : Rep hasRes acquired (some a) none) : w.recycle hasRes a = (w, a) := by
  cases h with
  | unpooled => rfl
  | ended => simp [World.recycle, Holder.valid]

theorem recycle_some (w : World κ π) (h : Rep hasRes acquired (some a) (some n)) :
    ∃ q r pools, acquired[n]? = some (q, r) ∧ w.recycle hasRes a =
      ({ w with pools := pools, returned := w.returned ++ [(q, r)] },
        ⟨none, invalidIter hasRes q⟩) := by
  cases h with
  | @owns q r _ h =>
    let p := ((w.pools q).recycle hasRes Empty.elim r).1
    refine ⟨q, r, Function.update w.pools q p, h, ?_⟩
    simp only [World.recycle, Holder.valid, ne_eq, res_ne_invalidIter, not_false_eq_true,
      decide_true, if_true, World.poolRecycle, p]

end

end Rep

namespace World

theorem tryAcquire_cases [DecidableEq π] (w : World κ π) (q : π) :
    (∃ pools, w.tryAcquire hasRes q = ({ w with pools := pools }, .empty)) ∨
      ∃ pools r, w.tryAcquire hasRes q =
        ({ w with pools := pools, acquired := w.acquired ++ [(q, r)] }, ⟨some q, .res r⟩) := by
  unfold tryAcquire
  cases hp : ((w.pools q).tryAcquire hasRes).2.p with
  | true => exact .inr ⟨_, _, by simp only [hp, if_true]; rfl⟩
  | false => exact .inl ⟨_, by simp only [hp, Bool.false_eq_true, if_false]; rfl⟩

/-! What is asked of the holders. -/

/-- Every acquisition has one owner, a valid holder with the pool and the resource acquired, or was
returned once, as just that resource; no other holder is valid. -/
structure Sound [DecidableEq π] (hasRes : Bool) (w : World κ π) : Prop where
  wild : w.wild = false
  owned : ∀ n < w.acquired.length,
    (∃! k, w.ledger.held k = some n) ∧ n ∉ w.ledger.spent ∨
      (∀ k, w.ledger.held k ≠ some n) ∧ w.ledger.spent.count n = 1
  valid : ∀ k, w.valid hasRes k = true ↔ ∃ n q r, w.ledger.held k = some n ∧
    w.acquired[n]? = some (q, r) ∧ w.objs k = some ⟨some q, .res r⟩
  returned : w.ledger.spent.map (fun n => w.acquired[n]?) = w.returned.map some

/-- The source of a move construction and a recycled holder are not valid. -/
def Emptied [DecidableEq π] (hasRes : Bool) (t : World κ π) : Event κ π → Prop
  | .moveConstruct _ j => t.valid hasRes j = false
  | .recycle k => t.valid hasRes k = false
  | _ => True

/-- A move construction from a holder without a pool. -/
def MovesFromNull (w : World κ π) : Event κ π → Prop
  | .moveConstruct _ j => ∃ t, w.objs j = some t ∧ t.p = none
  | _ => False

/-! The invariant. -/

structure Kept (hasRes : Bool) (w : World κ π) : Prop where
  wild : w.wild = false
  balanced : w.ledger.Balanced
  next : w.ledger.next = w.acquired.length
  out : w.ledger.out = []
  returned : w.ledger.spent.map (fun n => w.acquired[n]?) = w.returned.map some
  rep : ∀ k, Rep hasRes w.acquired (w.objs k) (w.ledger.held k)

theorem kept_init (cap : π → ℕ) : (init cap : World κ π).Kept hasRes where
  wild := rfl
  balanced := Ledger.balanced_init
  next := rfl
  out := rfl
  returned := rfl
  rep := fun _ => .dead

theorem Kept.valid_iff [DecidableEq π] (hw : w.Kept hasRes) (k : κ) :
    w.valid hasRes k = true ↔ ∃ n q r, w.ledger.held k = some n ∧
      w.acquired[n]? = some (q, r) ∧ w.objs k = some ⟨some q, .res r⟩ := by
  have hrep := hw.rep k
  unfold World.valid
  cases hk : w.objs k with
  | none => simp
  | some h =>
    rw [hk] at hrep
    simpa using hrep.valid_iff

theorem Kept.sound [DecidableEq π] (hw : w.Kept hasRes) : w.Sound hasRes where
  wild := hw.wild
  valid := hw.valid_iff
  returned := hw.returned
  owned := by
    intro n hn
    have hnodup : w.ledger.spent.Nodup := (List.nodup_append.1 hw.balanced.nodup).2.1
    rw [← hw.next, hw.balanced.total, hw.out] at hn
    obtain ⟨k, hk⟩ | hout | hspent := hn
    · exact .inl ⟨⟨k, hk, fun j hj => hw.balanced.single j k n hj hk⟩,
        (hw.balanced.apart k n hk).2⟩
    · cases hout
    · exact .inr ⟨fun k hk => (hw.balanced.apart k n hk).2 hspent,
        List.count_eq_one_of_mem hnodup hspent⟩

/-! One lemma for each operation. -/

section Step

variable [DecidableEq κ] {f : κ → Option (Holder π)} {g : κ → Option ℕ} {o : Option (Holder π)}

theorem rep_update (hrep : ∀ i, Rep hasRes acquired (f i) (g i)) (h : Rep hasRes acquired o x) :
    ∀ i, Rep hasRes acquired (Function.update f k o i) (Function.update g k x i) := by
  intro i
  by_cases hi : i = k
  · subst hi
    rwa [Function.update_self, Function.update_self]
  · rw [Function.update_of_ne hi, Function.update_of_ne hi]
    exact hrep i

/-- A dead object becomes a holder that owns nothing. -/
theorem Kept.put_empty (hw : w.Kept hasRes) (hk : w.objs k = none) (pools : π → Pool Empty) :
    Kept hasRes { w.put k (some .empty) with pools := pools } := by
  refine ⟨hw.wild, hw.balanced, hw.next, hw.out, hw.returned, ?_⟩
  have hheld : w.ledger.held k = none := by
    have := hw.rep k
    rw [hk] at this
    exact this.eq_none
  have := rep_update (k := k) hw.rep (@Rep.unpooled _ hasRes w.acquired .default)
  rwa [← hheld, Function.update_eq_self] at this

theorem Kept.acquire (hw : w.Kept hasRes) (hk : w.objs k = none) (pools : π → Pool Empty) :
    Kept hasRes { w.put k (some ⟨some q, .res r⟩) with
      pools := pools, acquired := w.acquired ++ [(q, r)], ledger := w.ledger.issue k } := by
  have hheld : w.ledger.held k = none := by
    have := hw.rep k
    rw [hk] at this
    exact this.eq_none
  refine ⟨hw.wild, hw.balanced.issue hheld, ?_, hw.out, ?_, ?_⟩
  · simp [Ledger.issue, hw.next]
  · refine Eq.trans (List.map_congr_left fun n hn => ?_) hw.returned
    have hlt : n < w.acquired.length := by
      rw [← hw.next]
      exact (hw.balanced.total n).2 (.inr (.inr hn))
    exact List.getElem?_append_left hlt
  · have hnew : (w.acquired ++ [(q, r)])[w.ledger.next]? = some (q, r) := by
      rw [hw.next, List.getElem?_concat_length]
    exact rep_update (fun i => (hw.rep i).mono) (.owns hnew)

theorem Kept.moveConstruct (hw : w.Kept hasRes) (hk : w.objs k = none) (hj : w.objs j = some a) :
    Kept hasRes { (w.put k (some a)).put j (some ⟨some q, invalidIter hasRes q⟩) with
      ledger := w.ledger.swap j k } := by
  have hne : j ≠ k := by
    rintro rfl
    rw [hk] at hj
    cases hj
  have hheld : w.ledger.held k = none := by
    have := hw.rep k
    rw [hk] at this
    exact this.eq_none
  have hsource : Rep hasRes w.acquired (some a) (w.ledger.held j) := hj ▸ hw.rep j
  refine ⟨hw.wild, hw.balanced.swap j k, hw.next, hw.out, hw.returned, ?_⟩
  have hcomm : (w.ledger.swap j k).held =
      Function.update (Function.update w.ledger.held k (w.ledger.held j)) j none := by
    simp only [Ledger.swap, hheld]
    exact Function.update_comm hne _ _ _
  intro i
  rw [hcomm]
  exact rep_update (rep_update hw.rep hsource) .ended i

theorem Kept.moveAssign (hw : w.Kept hasRes) (hk : w.objs k = some a) (hj : w.objs j = some b) :
    Kept hasRes { (w.put k (some b)).put j (some a) with ledger := w.ledger.swap k j } := by
  refine ⟨hw.wild, hw.balanced.swap k j, hw.next, hw.out, hw.returned, ?_⟩
  have hb : Rep hasRes w.acquired (some b) (w.ledger.held j) := hj ▸ hw.rep j
  have ha : Rep hasRes w.acquired (some a) (w.ledger.held k) := hk ▸ hw.rep k
  exact rep_update (rep_update hw.rep hb) ha

/-- What the holder owns is returned, and what is left in it owns nothing; the object stays so or is
dead. -/
theorem Kept.recycle [DecidableEq π] (hw : w.Kept hasRes) (hk : w.objs k = some a)
    (ho : Rep hasRes w.acquired (some (w.recycle hasRes a).2) none →
      Rep hasRes w.acquired o none) :
    Kept hasRes { (w.recycle hasRes a).1.put k o with ledger := w.ledger.spend k } := by
  have hrep : Rep hasRes w.acquired (some a) (w.ledger.held k) := hk ▸ hw.rep k
  have hbalanced := hw.balanced.spend k
  cases hheld : w.ledger.held k with
  | none =>
    rw [hheld] at hrep
    have hspend : w.ledger.spend k = w.ledger := by
      simp only [Ledger.spend, hheld, Option.toList_none, List.append_nil]
      rw [← hheld, Function.update_eq_self]
    rw [hrep.recycle_none] at ho ⊢
    rw [hspend]
    refine ⟨hw.wild, hw.balanced, hw.next, hw.out, hw.returned, ?_⟩
    have := rep_update (k := k) hw.rep (ho hrep)
    rwa [← hheld, Function.update_eq_self] at this
  | some n =>
    rw [hheld] at hrep
    obtain ⟨q, r, pools, hn, he⟩ := hrep.recycle_some w
    rw [he] at ho ⊢
    refine ⟨hw.wild, hbalanced, hw.next, hw.out, ?_, rep_update hw.rep (ho .unpooled)⟩
    simp only [Ledger.spend, put, hheld, Option.toList_some, List.map_append, List.map_cons,
      List.map_nil, hn]
    exact congrArg (· ++ [some (q, r)]) hw.returned

variable [DecidableEq π]

theorem kept_step (hw : w.Kept hasRes) (hs : step hasRes w e = some t)
    (hc : ¬w.MovesFromNull e) : t.Kept hasRes := by
  obtain ⟨u, hu, rfl⟩ := Option.map_eq_some_iff.1 hs
  unfold stepCode at hu
  rw [if_neg (by simp [hw.wild])] at hu
  cases e with
  | default k =>
    cases hk : w.objs k with
    | some h => simp [hk] at hu
    | none =>
      simp only [hk, Option.some.injEq] at hu
      subst hu
      exact hw.put_empty hk w.pools
  | acquire k q =>
    cases hk : w.objs k with
    | some h => simp [hk] at hu
    | none =>
      simp only [hk, Option.some.injEq] at hu
      subst hu
      obtain ⟨pools, he⟩ | ⟨pools, r, he⟩ := @tryAcquire_cases _ _ hasRes _ w q
      · rw [he]
        simp only [Event.own, put, lt_irrefl, decide_false, Bool.false_eq_true, if_false]
        exact hw.put_empty hk pools
      · rw [he]
        simp only [Event.own, put, List.length_append, List.length_singleton,
          Nat.lt_succ_self, decide_true, if_true]
        exact hw.acquire hk pools
  | moveConstruct k j =>
    cases hk : w.objs k with
    | some h => simp [hk] at hu
    | none =>
      cases hj : w.objs j with
      | none => simp [hk, hj] at hu
      | some a =>
        cases hp : a.p with
        | none => exact absurd ⟨a, hj, hp⟩ hc
        | some q =>
          simp only [hk, hj, hp, Option.some.injEq] at hu
          subst hu
          exact hw.moveConstruct hk hj
  | moveAssign k j =>
    cases hk : w.objs k with
    | none => simp [hk] at hu
    | some a =>
      cases hj : w.objs j with
      | none => simp [hk, hj] at hu
      | some b =>
        simp only [hk, hj, Option.some.injEq] at hu
        subst hu
        exact hw.moveAssign hk hj
  | recycle k =>
    cases hk : w.objs k with
    | none => simp [hk] at hu
    | some a =>
      simp only [hk, Option.some.injEq] at hu
      subst hu
      exact hw.recycle hk id
  | destroy k =>
    cases hk : w.objs k with
    | none => simp [hk] at hu
    | some a =>
      simp only [hk, Option.some.injEq] at hu
      subst hu
      exact hw.recycle hk fun _ => .dead

theorem emptied_step (hw : w.Kept hasRes) (hs : step hasRes w e = some t)
    (hc : ¬w.MovesFromNull e) : t.Emptied hasRes e := by
  have ht := kept_step hw hs hc
  have hvalid : ∀ i, t.ledger.held i = none → t.valid hasRes i = false := by
    intro i hi
    rw [← Bool.not_eq_true, ht.valid_iff i]
    rintro ⟨n, q, r, hn, -⟩
    rw [hi] at hn
    cases hn
  obtain ⟨u, hu, rfl⟩ := Option.map_eq_some_iff.1 hs
  cases e with
  | moveConstruct k j =>
    refine hvalid j ?_
    -- the new object was dead, so there was nothing it could give back
    have hheld : w.ledger.held k = none := by
      have hrep := hw.rep k
      cases hk : w.objs k with
      | none =>
        rw [hk] at hrep
        exact hrep.eq_none
      | some a => simp [stepCode, hk] at hu
    simp only [Event.own, Ledger.held_swap, Equiv.swap_apply_left]
    exact hheld
  | recycle k =>
    refine hvalid k ?_
    simp [Event.own, Ledger.spend]
  | _ => trivial

theorem not_sound_of_null (hw : w.Kept hasRes) (hs : step hasRes w e = some t)
    (hc : w.MovesFromNull e) : ¬t.Sound hasRes := by
  obtain ⟨u, hu, rfl⟩ := Option.map_eq_some_iff.1 hs
  intro hsound
  have hwild := hsound.wild
  cases e with
  | moveConstruct k j =>
    obtain ⟨a, hj, hp⟩ := hc
    cases hk : w.objs k with
    | some b => simp [stepCode, hk] at hu
    | none =>
      simp only [stepCode, hw.wild, Bool.false_eq_true, if_false, hk, hj, hp,
        Option.some.injEq] at hu
      rw [← hu] at hwild
      cases hwild
  | _ => exact hc.elim

/-- The holders own what they should in exactly the runs in which none is move-constructed from a
holder without a pool: `invalid_iter` is asked of the null pool. -/
theorem each_sound_iff (hasRes : Bool) (cap : π → ℕ) (es : List (Event κ π)) :
    Steps.Each (step hasRes) (fun _ e t => t.Sound hasRes ∧ t.Emptied hasRes e) (init cap) es ↔
      Steps.Each (step hasRes) (fun w e _ => ¬w.MovesFromNull e) (init cap) es := by
  refine Steps.each_iff_each (I := Kept hasRes) ?_ ?_ (kept_init cap)
  · intro w e t hw hs
    constructor
    · intro hgood hc
      exact not_sound_of_null hw hs hc hgood.1
    · intro hc
      exact ⟨(kept_step hw hs hc).sound, emptied_step hw hs hc⟩
  · intro w e t hw hs hc
    exact kept_step hw hs hc

end Step

/-- A default-constructed holder is moved. -/
theorem not_each_sound : ¬Steps.Each (step true)
    (fun (_ : World ℕ Unit) e t => t.Sound true ∧ t.Emptied true e) (init fun _ => 1)
    [.default 0, .moveConstruct 1 0] := by
  intro h
  obtain ⟨-, h⟩ := h _ rfl
  obtain ⟨⟨hsound, -⟩, -⟩ := h _ rfl
  exact absurd hsound.wild (by decide)

end World

end Jkl.Async.ResHolder
