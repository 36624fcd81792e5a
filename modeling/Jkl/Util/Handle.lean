import Jkl.Lib.Ledger
import Jkl.Lib.Run

/-! `handle_t`: an owner of any handle, copyable with a copier. A handle is a number, the
order in which it was made; `none` is `Null`. A world has every object of one handle type. -/
namespace Jkl.Util

variable {D K : Type*}

/-- The members `_h`, `_del` and `_cpy`. -/
structure HandleT (D K : Type*) where
  h : Option ℕ
  del : D
  cpy : K

namespace HandleT

def valid (a : HandleT D K) : Bool := a.h.isSome

/-- The handle the destructor passes to the deleter, with the deleter. -/
def dispose (a : HandleT D K) : List (D × ℕ) := (a.h.map (Prod.mk a.del)).toList

/-- `reset`; what the deleter was called with. -/
def reset (h : Option ℕ) (a : HandleT D K) : HandleT D K × List (D × ℕ) :=
  ({ a with h := h }, a.dispose)

def release (a : HandleT D K) : Option ℕ × HandleT D K := (a.h, { a with h := none })

end HandleT

/-- The objects by address, the number of handles made, the calls of deleters, the handles
that `release` has given to the user, and the calls of copiers: result and argument. -/
structure World (D K : Type*) where
  objs : ℕ → Option (HandleT D K)
  next : ℕ
  deleted : List (D × ℕ)
  released : List ℕ
  clones : List (ℕ × Option ℕ)

/-- Where a handle that the user passes comes from. -/
inductive Raw where
  | null
  | fresh
  | released (h : ℕ)
  deriving DecidableEq, Repr

inductive HandleOp (D K : Type*) where
  | construct (i : ℕ) (h : Raw) (d : D) (c : K)
  | copyConstruct (i j : ℕ)
  | copyAssign (i j : ℕ)
  | moveConstruct (i j : ℕ)
  | moveAssign (i j : ℕ)
  | swap (i j : ℕ)
  | reset (i : ℕ) (h : Raw)
  | release (i : ℕ)
  | destroy (i : ℕ)

namespace World

def init : World D K := ⟨fun _ => none, 0, [], [], []⟩

def put (w : World D K) (i : ℕ) (a : Option (HandleT D K)) : World D K :=
  { w with objs := Function.update w.objs i a }

def logDeleted (w : World D K) (ds : List (D × ℕ)) : World D K :=
  { w with deleted := w.deleted ++ ds }

def take (w : World D K) : Raw → Option (World D K × Option ℕ)
  | .null => some (w, none)
  | .fresh => some ({ w with next := w.next + 1 }, some w.next)
  | .released h =>
    if h ∈ w.released then some ({ w with released := w.released.erase h }, some h) else none

/-- `_cpy(h)`: a fresh handle. -/
def copier (w : World D K) (h : Option ℕ) : World D K × Option ℕ :=
  ({ w with next := w.next + 1, clones := (w.next, h) :: w.clones }, some w.next)

def copyConstruct (w : World D K) (i : ℕ) (r : HandleT D K) : World D K :=
  let (w, h) := if r.valid then w.copier r.h else (w, r.h)
  w.put i (some ⟨h, r.del, r.cpy⟩)

/-- The body of the copy assignment from another object; its `r.h` is read as `r._h`. -/
def copyAssign (w : World D K) (i : ℕ) (a r : HandleT D K) : World D K :=
  -- the copier gets the handle of the target
  let (w, h) := if r.valid then w.copier a.h else (w, r.h)
  w.put i (some ⟨h, r.del, r.cpy⟩)

def moveConstruct (w : World D K) (i j : ℕ) (r : HandleT D K) : World D K :=
  let (h, r) := r.release
  (w.put j (some r)).put i (some ⟨h, r.del, r.cpy⟩)

def moveAssign (w : World D K) (i j : ℕ) (a r : HandleT D K) : World D K :=
  let (h, r) := r.release
  let (a, ds) := a.reset h
  ((w.put j (some r)).put i (some { a with del := r.del, cpy := r.cpy })).logDeleted ds

def step (copyable : Bool) (w : World D K) : HandleOp D K → Option (World D K)
  | .construct i h d c =>
    match w.objs i, w.take h with
    | none, some (w, h) => some (w.put i (some ⟨h, d, c⟩))
    | _, _ => none
  | .copyConstruct i j =>
    match w.objs i, w.objs j with
    | none, some r => if copyable then some (w.copyConstruct i r) else none
    | _, _ => none
  | .copyAssign i j =>
    match w.objs i, w.objs j with
    | some a, some r =>
      if copyable then some (if i = j then w else w.copyAssign i a r) else none
    | _, _ => none
  | .moveConstruct i j =>
    match w.objs i, w.objs j with
    | none, some r => some (w.moveConstruct i j r)
    | _, _ => none
  | .moveAssign i j =>
    match w.objs i, w.objs j with
    | some a, some r => some (if i = j then w else w.moveAssign i j a r)
    | _, _ => none
  | .swap i j =>
    match w.objs i, w.objs j with
    | some a, some b => some ((w.put i (some b)).put j (some a))
    | _, _ => none
  | .reset i h =>
    match w.objs i, w.take h with
    | some a, some (w, h) =>
      let (a, ds) := a.reset h
      some ((w.put i (some a)).logDeleted ds)
    | _, _ => none
  | .release i =>
    match w.objs i with
    | none => none
    | some a =>
      let (h, a) := a.release
      let w := w.put i (some a)
      some { w with released := w.released ++ h.toList }
  | .destroy i =>
    match w.objs i with
    | none => none
    | some a => some ((w.put i none).logDeleted a.dispose)

/-- `get()` of the object at `i`. -/
def get (w : World D K) (i : ℕ) : Option ℕ := (w.objs i).bind HandleT.h

def deletedHandles (w : World D K) : List ℕ := w.deleted.map Prod.snd

/-- Who owns which handle. -/
def ledger (w : World D K) : Ledger ℕ := ⟨w.get, w.next, w.released, w.deletedHandles⟩

/-- Every handle that is alive has one owner or was released; a handle is deleted once, and
nobody holds it then. -/
structure Owned (w : World D K) : Prop where
  alive : ∀ h < w.next, h ∉ w.deletedHandles → (∃! i, w.get i = some h) ∨ h ∈ w.released
  once : w.deletedHandles.Nodup
  dead : ∀ i h, w.get i = some h → h ∉ w.deletedHandles

/-- Object `i` of `t` holds a clone of the handle that object `j` of `w` holds. -/
def Cloned (w t : World D K) (i j : ℕ) : Prop :=
  match w.get j with
  | none => t.get i = none
  | some h => ∃ c, t.get i = some c ∧ (c, some h) ∈ t.clones

/-- What a copy does to its target. -/
def Copied (w : World D K) (t : World D K) : HandleOp D K → Prop
  | .copyConstruct i j => w.Cloned t i j
  | .copyAssign i j => i = j ∨ w.Cloned t i j
  | _ => True

/-- A copy assignment between two objects that are not both null. -/
def CopyAssignsHandle (w : World D K) : HandleOp D K → Prop
  | .copyAssign i j => i ≠ j ∧ (w.get i ≠ none ∨ w.get j ≠ none)
  | _ => False

variable {copyable : Bool} {w v t : World D K} {i j : ℕ} {a r : HandleT D K} {h : Option ℕ}
  {e : HandleOp D K}

@[simp] theorem get_put (a : Option (HandleT D K)) :
    (w.put i a).get = Function.update w.get i (a.bind HandleT.h) := by
  funext k
  by_cases hk : k = i
  · subst hk; simp [get, put]
  · simp [get, put, hk]

theorem get_of_objs (ho : w.objs i = some a) : w.get i = a.h := by simp [get, ho]

theorem get_of_objs_none (ho : w.objs i = none) : w.get i = none := by simp [get, ho]

@[simp] theorem map_snd_dispose : a.dispose.map Prod.snd = a.h.toList := by
  cases ha : a.h <;> simp [HandleT.dispose, ha]

theorem take_cases {x : Raw} (ht : w.take x = some (v, h)) :
    v = w ∧ h = none ∨ v = { w with next := w.next + 1 } ∧ h = some w.next ∨
      ∃ k ∈ w.released, v = { w with released := w.released.erase k } ∧ h = some k := by
  cases x with
  | null => simp only [take, Option.some.injEq, Prod.mk.injEq] at ht; grind
  | fresh => simp only [take, Option.some.injEq, Prod.mk.injEq] at ht; grind
  | released k =>
    simp only [take] at ht
    split_ifs at ht with hk
    simp only [Option.some.injEq, Prod.mk.injEq] at ht
    grind

/-- A raw handle given to an empty slot keeps the books balanced. -/
theorem balanced_take {x : Raw} {l : Ledger ℕ} (hl : l.Balanced) (hi : l.held i = none)
    (ht : w.take x = some (v, h)) (hnext : l.next = w.next) (hout : l.out = w.released) :
    Ledger.Balanced ⟨Function.update l.held i h, v.next, v.released, l.spent⟩ := by
  rcases take_cases ht with ⟨rfl, rfl⟩ | ⟨rfl, rfl⟩ | ⟨k, hk, rfl, rfl⟩
  · rw [← hnext, ← hout, ← hi, Function.update_eq_self]
    exact hl
  · have := hl.issue hi
    simpa [Ledger.issue, hnext, hout] using this
  · have := hl.takeBack hi (hout ▸ hk)
    simpa [Ledger.takeBack, hnext, hout] using this

/-- The invariant: balanced books, and the copier was only called for handles made so far. -/
structure Kept (w : World D K) : Prop where
  balanced : w.ledger.Balanced
  clones : ∀ p ∈ w.clones, p.1 < w.next

theorem kept_init : Kept (init : World D K) := ⟨Ledger.balanced_init, by simp [init]⟩

theorem clones_take {x : Raw} (hc : ∀ p ∈ w.clones, p.1 < w.next) (ht : w.take x = some (v, h)) :
    ∀ p ∈ v.clones, p.1 < v.next := by
  intro p hp
  rcases take_cases ht with ⟨rfl, -⟩ | ⟨rfl, -⟩ | ⟨k, -, rfl, -⟩
  · exact hc p hp
  · exact Nat.lt_succ_of_lt (hc p hp)
  · exact hc p hp

theorem ledger_put (a : Option (HandleT D K)) :
    (w.put i a).ledger =
      { w.ledger with held := Function.update w.get i (a.bind HandleT.h) } := by
  simp only [ledger, get_put]
  rfl

theorem ledger_logDeleted (ds : List (D × ℕ)) :
    (w.logDeleted ds).ledger =
      { w.ledger with spent := w.ledger.spent ++ ds.map Prod.snd } := by
  simp only [ledger, deletedHandles, logDeleted, List.map_append]
  rfl

/-- The object at `i` goes, and its handle is deleted. -/
theorem kept_put_dispose (hw : w.Kept) (ha : w.objs i = some a) {b : Option (HandleT D K)}
    (hb : b.bind HandleT.h = none) : ((w.put i b).logDeleted a.dispose).Kept := by
  refine ⟨?_, hw.clones⟩
  have := hw.balanced.spend i
  rw [ledger_logDeleted, ledger_put, hb, map_snd_dispose, ← get_of_objs ha]
  exact this

theorem kept_construct {x : Raw} {d : D} {c : K} (hw : w.Kept) (hi : w.objs i = none)
    (ht : w.take x = some (v, h)) : (v.put i (some ⟨h, d, c⟩)).Kept := by
  have hc := clones_take hw.clones ht
  refine ⟨?_, hc⟩
  have hl := balanced_take hw.balanced (get_of_objs_none hi) ht rfl rfl
  have hv : v.deletedHandles = w.deletedHandles ∧ v.get = w.get := by
    rcases take_cases ht with ⟨rfl, -⟩ | ⟨rfl, -⟩ | ⟨k, -, rfl, -⟩ <;> exact ⟨rfl, rfl⟩
  rw [ledger_put]
  simpa [ledger, hv.1, hv.2] using hl

theorem kept_reset {x : Raw} (hw : w.Kept) (ha : w.objs i = some a) (ht : w.take x = some (v, h)) :
    ((v.put i (some (a.reset h).1)).logDeleted (a.reset h).2).Kept := by
  have hc := clones_take hw.clones ht
  refine ⟨?_, hc⟩
  have hempty : (w.ledger.spend i).held i = none := by simp [Ledger.spend]
  have hl := balanced_take (hw.balanced.spend i) hempty ht rfl rfl
  have hv : v.deletedHandles = w.deletedHandles ∧ v.get = w.get := by
    rcases take_cases ht with ⟨rfl, -⟩ | ⟨rfl, -⟩ | ⟨k, -, rfl, -⟩ <;> exact ⟨rfl, rfl⟩
  rw [ledger_logDeleted, ledger_put]
  simpa [ledger, hv.1, hv.2, Ledger.spend, HandleT.reset, get_of_objs ha] using hl

theorem kept_copyConstruct (hw : w.Kept) (hi : w.objs i = none) : (w.copyConstruct i r).Kept := by
  simp only [copyConstruct]
  have hfree := get_of_objs_none hi
  cases hr : r.h with
  | none =>
    have hinv : r.valid = false := by simp [HandleT.valid, hr]
    simp only [hinv, Bool.false_eq_true, if_false]
    refine ⟨?_, hw.clones⟩
    rw [ledger_put, Option.bind_some, ← hfree, Function.update_eq_self]
    exact hw.balanced
  | some h =>
    have hinv : r.valid = true := by simp [HandleT.valid, hr]
    simp only [hinv, if_true, copier]
    refine ⟨?_, ?_⟩
    · rw [ledger_put]
      exact hw.balanced.issue hfree
    · intro p hp
      rcases List.mem_cons.1 hp with rfl | hp
      · exact Nat.lt_succ_self _
      · exact Nat.lt_succ_of_lt (hw.clones p hp)

theorem kept_moveConstruct (hw : w.Kept) (hi : w.objs i = none) (hj : w.objs j = some r) :
    (w.moveConstruct i j r).Kept := by
  refine ⟨?_, hw.clones⟩
  have hij : i ≠ j := by rintro rfl; simp [hi] at hj
  have := hw.balanced.swap j i
  simp only [moveConstruct, HandleT.release, ledger_put, get_put, Option.bind_some]
  rw [← get_of_objs hj, ← get_of_objs_none hi]
  exact this

theorem kept_moveAssign (hw : w.Kept) (hi : w.objs i = some a) (hj : w.objs j = some r)
    (hij : i ≠ j) : (w.moveAssign i j a r).Kept := by
  refine ⟨?_, hw.clones⟩
  have := (hw.balanced.spend i).swap j i
  simp only [moveAssign, HandleT.release, HandleT.reset, ledger_logDeleted, ledger_put, get_put,
    Option.bind_some, map_snd_dispose]
  rw [← get_of_objs hj, ← get_of_objs hi]
  simp only [Ledger.swap, Ledger.spend, Function.update_self, Function.update_of_ne hij.symm,
    ledger] at this ⊢
  rwa [Function.update_comm hij, Function.update_idem] at this

theorem kept_swap (hw : w.Kept) (hi : w.objs i = some a) (hj : w.objs j = some r) :
    ((w.put i (some r)).put j (some a)).Kept := by
  refine ⟨?_, hw.clones⟩
  have := hw.balanced.swap i j
  simp only [ledger_put, get_put, Option.bind_some]
  rw [← get_of_objs hi, ← get_of_objs hj]
  exact this

theorem kept_release (hw : w.Kept) (ha : w.objs i = some a) :
    Kept { w.put i (some { a with h := none }) with released := w.released ++ a.h.toList } := by
  refine ⟨?_, hw.clones⟩
  have := hw.balanced.giveAway i
  have hget : get { w.put i (some { a with h := none }) with
      released := w.released ++ a.h.toList } = Function.update w.get i none := get_put _
  rw [ledger, hget, ← get_of_objs ha]
  exact this

theorem kept_step (hw : w.Kept) (hs : step copyable w e = some t)
    (hc : ¬ w.CopyAssignsHandle e) : t.Kept := by
  cases e with
  | construct i x d c =>
    simp only [step] at hs
    split at hs <;> cases hs
    next hi ht => exact kept_construct hw hi ht
  | copyConstruct i j =>
    simp only [step] at hs
    split at hs
    next hi hj =>
      split_ifs at hs
      cases hs
      exact kept_copyConstruct hw hi
    next => cases hs
  | copyAssign i j =>
    simp only [step] at hs
    split at hs
    next a r hi hj =>
      split_ifs at hs with hcopy hij
      · cases hs
        exact hw
      · obtain rfl := Option.some.inj hs
        -- both objects are null, so the target stays what it was
        simp only [CopyAssignsHandle, get_of_objs hi, get_of_objs hj] at hc
        have hnull : a.h = none ∧ r.h = none := by tauto
        have hinv : r.valid = false := by simp [HandleT.valid, hnull.2]
        simp only [copyAssign, hinv, Bool.false_eq_true, if_false]
        refine ⟨?_, hw.clones⟩
        have hget : r.h = w.get i := by rw [get_of_objs hi, hnull.1, hnull.2]
        rw [ledger_put, Option.bind_some, hget, Function.update_eq_self]
        exact hw.balanced
    next => cases hs
  | moveConstruct i j =>
    simp only [step] at hs
    split at hs <;> cases hs
    next hi hj => exact kept_moveConstruct hw hi hj
  | moveAssign i j =>
    simp only [step] at hs
    split at hs
    next a r hi hj =>
      split_ifs at hs with hij
      · cases hs
        exact hw
      · cases hs
        exact kept_moveAssign hw hi hj hij
    next => cases hs
  | swap i j =>
    simp only [step] at hs
    split at hs <;> cases hs
    next hi hj => exact kept_swap hw hi hj
  | reset i x =>
    simp only [step] at hs
    split at hs <;> cases hs
    next hi ht => exact kept_reset hw hi ht
  | release i =>
    simp only [step] at hs
    split at hs <;> cases hs
    next hi => exact kept_release hw hi
  | destroy i =>
    simp only [step] at hs
    split at hs <;> cases hs
    next hi => exact kept_put_dispose hw hi rfl

theorem owned_of_kept (hw : w.Kept) : w.Owned where
  alive := by
    intro h hlt hdel
    rcases (hw.balanced.total h).1 hlt with ⟨i, hi⟩ | hrel | hdead
    · exact .inl ⟨i, hi, fun j hj => hw.balanced.single j i h hj hi⟩
    · exact .inr hrel
    · exact absurd hdead hdel
  once := (List.nodup_append.1 hw.balanced.nodup).2.1
  dead := fun i h hi => (hw.balanced.apart i h hi).2

/-- A copy construction clones the handle of the source. -/
theorem cloned_copyConstruct (hj : w.objs j = some r) :
    w.Cloned (w.copyConstruct i r) i j := by
  simp only [Cloned, get_of_objs hj, copyConstruct]
  cases hr : r.h with
  | none => simp [HandleT.valid, hr]
  | some h =>
    have hv : r.valid = true := by simp [HandleT.valid, hr]
    exact ⟨w.next, by simp [hv, copier], by simp [hv, copier, put]⟩

theorem copied_step (hs : step copyable w e = some t) (hc : ¬ w.CopyAssignsHandle e) :
    w.Copied t e := by
  cases e with
  | copyConstruct i j =>
    simp only [step] at hs
    split at hs
    next hi hj =>
      split_ifs at hs
      cases hs
      exact cloned_copyConstruct hj
    next => cases hs
  | copyAssign i j =>
    simp only [step] at hs
    split at hs
    next a r hi hj =>
      split_ifs at hs with hcopy hij
      · exact .inl hij
      · obtain rfl := Option.some.inj hs
        simp only [CopyAssignsHandle, get_of_objs hi, get_of_objs hj] at hc
        have hnull : r.h = none := by tauto
        refine .inr ?_
        simp [Cloned, get_of_objs hj, hnull, copyAssign, HandleT.valid]
    next => cases hs
  | _ => trivial

/-- A copy assignment from a null object leaks the handle of the target; one from any other
object clones the handle of the target. -/
theorem not_owned_copyAssign (hw : w.Kept) (hs : step copyable w e = some t)
    (hc : w.CopyAssignsHandle e) : ¬ (t.Owned ∧ w.Copied t e) := by
  cases e with
  | copyAssign i j =>
    obtain ⟨hij, hheld⟩ := hc
    simp only [step] at hs
    split at hs
    next a r hi hj =>
      simp only [if_neg hij] at hs
      split_ifs at hs with hcopy
      obtain rfl := Option.some.inj hs
      rw [get_of_objs hi, get_of_objs hj] at hheld
      rintro ⟨hown, hcopied⟩
      cases hr : r.h with
      | none =>
        obtain ⟨o, ho⟩ := Option.ne_none_iff_exists'.1 (hheld.resolve_right (not_not.2 hr))
        have hv : r.valid = false := by simp [HandleT.valid, hr]
        have hio : w.get i = some o := (get_of_objs hi).trans ho
        have hlt : o < w.next := (hw.balanced.total o).2 (.inl ⟨i, hio⟩)
        obtain ⟨hrel, hdel⟩ := hw.balanced.apart i o hio
        simp only [copyAssign, hv, Bool.false_eq_true, if_false] at hown
        rcases hown.alive o hlt hdel with ⟨k, hk, -⟩ | hout
        · simp only [get_put, Option.bind_some, hr] at hk
          by_cases hki : k = i
          · simp [hki] at hk
          · rw [Function.update_of_ne hki] at hk
            exact hki (hw.balanced.single k i o hk hio)
        · exact hrel hout
      | some g =>
        have hv : r.valid = true := by simp [HandleT.valid, hr]
        have hjg : w.get j = some g := (get_of_objs hj).trans hr
        rcases hcopied with heq | hcl
        · exact hij heq
        · simp only [Cloned, hjg] at hcl
          obtain ⟨c, hget, hmem⟩ := hcl
          simp only [copyAssign, hv, if_true, copier, get_put, Option.bind_some,
            Function.update_self, Option.some.injEq] at hget
          subst hget
          simp only [copyAssign, hv, if_true, copier, put, List.mem_cons, Prod.mk.injEq,
            true_and] at hmem
          rcases hmem with heq | hold
          · exact hij (hw.balanced.single i j g ((get_of_objs hi).trans heq.symm) hjg)
          · exact Nat.lt_irrefl _ (hw.clones _ hold)
    next => cases hs
  | _ => exact hc.elim

/-- The handles stay owned, and every copy leaves a clone, in exactly the runs without a copy
assignment between two objects that are not both null. -/
theorem each_owned_iff (copyable : Bool) (es : List (HandleOp D K)) :
    Steps.Each (step copyable) (fun w e t => t.Owned ∧ w.Copied t e) init es ↔
      Steps.Each (step copyable) (fun w e _ => ¬ w.CopyAssignsHandle e) init es := by
  refine Steps.each_iff_each (I := Kept) ?_ ?_ kept_init
  · intro w e t hw hs
    constructor
    · intro hgood hc
      exact not_owned_copyAssign hw hs hc hgood
    · intro hc
      exact ⟨owned_of_kept (kept_step hw hs hc), copied_step hs hc⟩
  · intro w e t hw hs hc
    exact kept_step hw hs hc

/-- Two owners, the second assigned to the first: the first handle is lost. -/
theorem not_each_owned : ¬ Steps.Each (step true) (fun w e t => t.Owned ∧ w.Copied t e)
    (init : World Unit Unit)
    [.construct 0 .fresh () (), .construct 1 .fresh () (), .copyAssign 0 1] := by
  intro h
  obtain ⟨-, h⟩ := h _ rfl
  obtain ⟨-, h⟩ := h _ rfl
  obtain ⟨⟨-, hcopied⟩, -⟩ := h _ rfl
  rcases hcopied with heq | ⟨c, -, hmem⟩
  · exact absurd heq (by decide)
  · have hpair : (c, some 1) = (2, some 0) := List.mem_singleton.1 hmem
    simp at hpair

end World

end Jkl.Util
