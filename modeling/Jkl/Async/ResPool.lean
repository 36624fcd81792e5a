import Jkl.Lib.Run
import Mathlib.Data.Finset.Basic
import Mathlib.Data.Multiset.Filter

/-! `res_pool`: a bounded pool of resources with a queue of waiting coroutines. `hasRes` tells
the variant with resources from the counting one (`T` is `void`). An iterator is a number:
the identity of a list node, or the value of the counter; `0` is `invalid_iter()`.
Every critical section is one step, and what happens outside of the lock is a step of its
own. The awaiters `ι` are the `co_await acquire()`s there will ever be. -/
namespace Jkl.Async.ResPool

variable {ι : Type*}

/-- `res_holder`: `p` tells whether `_p` points to the pool. -/
structure Holder where
  p : Bool
  it : ℕ
  deriving DecidableEq, Repr

namespace Holder

/-- A default-constructed holder. -/
def empty : Holder := ⟨false, 0⟩

def valid (h : Holder) : Bool := h.p && h.it != 0

/-- What the move constructor leaves in its source. -/
def movedFrom (h : Holder) : Holder := ⟨h.p, 0⟩

end Holder

/-- `id_type`: a sequence number and the address of the slot in the queue. -/
abbrev Id := ℕ × ℕ

/-- The members of the pool. A slot of `_awaiterQueue` has its address beside the pointer;
`created` counts the resources made so far, the identity of the last one. -/
structure Pool (ι : Type*) where
  cap : ℕ
  size : ℕ
  inuse : List ℕ
  unused : List ℕ
  awaiterQueue : List (ℕ × Option ι)
  awaiters : Finset Id
  idSeq : ℕ
  created : ℕ

namespace Pool

/-- The constructor. -/
def init (cap : ℕ) : Pool ι :=
  { cap := cap, size := 0, inuse := [], unused := [], awaiterQueue := [], awaiters := ∅,
    idSeq := 0, created := 0 }

/-- `occupied_cap_nolock`. -/
def occupiedCap (hasRes : Bool) (p : Pool ι) : ℕ :=
  if hasRes then p.unused.length + p.inuse.length else p.size

/-- `_creator` with `emplace_res_to_unused`, called once. -/
def create (p : Pool ι) : Pool ι :=
  { p with unused := (p.created + 1) :: p.unused, created := p.created + 1 }

/-- `_inuse.splice(_inuse.begin(), _unused, _unused.begin())`. -/
def spliceInuse (p : Pool ι) : Pool ι × Holder :=
  match p.unused with
  | [] => (p, .empty)
  | r :: rest =>
    let p := { p with inuse := r :: p.inuse, unused := rest }
    (p, ⟨true, r⟩)

def tryAcquire (hasRes : Bool) (p : Pool ι) : Pool ι × Holder :=
  if hasRes then
    if p.unused.isEmpty then
      if p.inuse.length < p.cap then p.create.spliceInuse else (p, .empty)
    else p.spliceInuse
  else if p.size < p.cap then
    let p := { p with size := p.size + 1 }
    (p, ⟨true, p.size⟩)
  else (p, .empty)

/-- `add_awaiter`, the new slot at address `addr`; the id it gives to the awaiter. -/
def addAwaiter (w : ι) (addr : ℕ) (p : Pool ι) : Pool ι × Id :=
  let id : Id := (p.idSeq + 1, addr)
  let p := { p with
    awaiterQueue := p.awaiterQueue ++ [(addr, some w)]
    awaiters := insert id p.awaiters
    idSeq := p.idSeq + 1 }
  (p, id)

/-- `* ptr = nullptr`. -/
def setNull (addr : ℕ) (q : List (ℕ × Option ι)) : List (ℕ × Option ι) :=
  q.map fun e => if e.1 = addr then (e.1, none) else e

def removeAwaiter (id : Id) (p : Pool ι) : Pool ι × Bool :=
  if id ∈ p.awaiters then
    let p := { p with
      awaiters := p.awaiters.erase id
      awaiterQueue := setNull id.2 p.awaiterQueue }
    (p, true)
  else (p, false)

/-- The null pointers at the front are dropped; then `front()` and `pop_front()`. -/
def popLive : List (ℕ × Option ι) → Option (ι × List (ℕ × Option ι))
  | [] => none
  | (_, none) :: q => popLive q
  | (_, some w) :: q => some (w, q)

/-- The critical section of `recycle`; the awaiter to complete. -/
def recycle (hasRes : Bool) (getId : ι → Id) (it : ℕ) (p : Pool ι) : Pool ι × Option ι :=
  match popLive p.awaiterQueue with
  | none =>
    let p := { p with awaiterQueue := [] }
    if hasRes then
      let p := { p with inuse := p.inuse.erase it, unused := it :: p.unused }
      (p, none)
    else
      let p := { p with size := p.size - 1 }
      (p, none)
  | some (w, q) =>
    let p := { p with awaiterQueue := q, awaiters := p.awaiters.erase (getId w) }
    (p, some w)

def clearUnused (p : Pool ι) : Pool ι := { p with unused := [] }

def reserve (hasRes : Bool) (n : ℕ) (p : Pool ι) : Pool ι :=
  if n > p.occupiedCap hasRes then { p with cap := n } else p

/-- `reserve_by`; `scaled` is the value of `floor(_cap * ratio)`, `none` when it does not fit
and `numeric_cast` throws. -/
def reserveBy (hasRes : Bool) (scaled : Option ℕ) (maxCap : ℕ) (p : Pool ι) : Pool ι :=
  match scaled with
  | none => p
  | some n => p.reserve hasRes (min maxCap n)

/-- `_creator` called `n` times. -/
def createN : ℕ → Pool ι → Pool ι
  | 0, p => p
  | n + 1, p => createN n p.create

def createAll (p : Pool ι) : Pool ι := createN (p.cap - p.occupiedCap true) p

/-- What the destructor asserts. -/
def destructible (hasRes : Bool) (p : Pool ι) : Bool :=
  (if hasRes then p.inuse.isEmpty else p.size == 0) && p.awaiterQueue.isEmpty &&
    decide (p.awaiters = ∅)

end Pool

/-- What completed an awaiter. -/
inductive Cause where
  | handedOver
  | timeout
  | stop
  deriving DecidableEq, Repr

/-- The template arguments of `awaiter`. -/
structure Options where
  enableStop : Bool
  hasExpiryDur : Bool
  deriving DecidableEq, Repr

/-- One awaiter. `begun` tells that it has been awaited, `timer` that its timer has not run
out yet, `stopCb` that its stop callback is registered. `completions` lists what has
completed it, in order. -/
structure Waiter where
  begun : Bool
  id : Option Id
  timer : Bool
  stopCb : Bool
  completions : List Cause
  deriving DecidableEq, Repr

def Waiter.init : Waiter :=
  { begun := false, id := none, timer := false, stopCb := false, completions := [] }

/-- `get_id()`. -/
def Waiter.getId (w : Waiter) : Id := w.id.getD (0, 0)

/-- The pool with its users: all holder objects, the recycles before their critical section,
the ones between it and `complete`, and the completed awaiters (with the iterator in their
`_rh`) whose resumption is posted. `enqueued` and `served` record the awaiters in the order
in which they were queued and chosen. -/
structure State (ι : Type*) where
  pool : Pool ι
  holders : List Holder
  recycling : List ℕ
  completing : List (ι × ℕ)
  posted : List (ι × ℕ)
  waiters : ι → Waiter
  enqueued : List ι
  served : List ι

def State.init (cap : ℕ) : State ι :=
  { pool := .init cap, holders := [], recycling := [], completing := [], posted := [],
    waiters := fun _ => .init, enqueued := [], served := [] }

inductive Event (ι : Type*) where
  | tryAcquire
  | acquire (i : ι) (addr : ℕ) (stopRequested : Bool)
  | recycle (k : ℕ)
  | recycleLocked (it : ℕ)
  | complete (i : ι) (it : ℕ)
  | resume (i : ι) (it : ℕ)
  | timeout (i : ι)
  | stop (i : ι)
  | newHolder
  | moveConstruct (k : ℕ)
  | moveAssign (j k : ℕ)
  | clearUnused
  | reserve (n : ℕ)
  | reserveBy (scaled : Option ℕ) (maxCap : ℕ)
  | createAll

section Step

variable [DecidableEq ι]

def State.setWaiter (s : State ι) (i : ι) (w : Waiter) : State ι :=
  { s with waiters := Function.update s.waiters i w }

/-- The result of an `acquire` that does not wait is a new holder. -/
def State.addHolder (s : State ι) (h : Holder) : State ι := { s with holders := s.holders ++ [h] }

/-- `await_suspend` of awaiter `i`, which owns the lock; `stopRequested` is what the promise
answers. A new slot has an address that no slot in the queue has. -/
def State.acquire (hasRes : Bool) (o : Options) (i : ι) (addr : ℕ) (stopRequested : Bool)
    (s : State ι) : Option (State ι) :=
  let w := { s.waiters i with begun := true }
  if o.enableStop && stopRequested then some (s.setWaiter i w)
  else
    let (p, h) := s.pool.tryAcquire hasRes
    if h.valid then
      let s := { s with pool := p }
      some ((s.setWaiter i w).addHolder h)
    else if addr ∈ p.awaiterQueue.map Prod.fst then none
    else
      let (p, id) := p.addAwaiter i addr
      let s := { s with pool := p, enqueued := s.enqueued ++ [i] }
      let w := { w with id := some id, timer := o.hasExpiryDur, stopCb := o.enableStop }
      some (s.setWaiter i w)

/-- The critical section of `recycle` and what it decides. -/
def State.recycleLocked (hasRes : Bool) (it : ℕ) (s : State ι) : State ι :=
  let (p, w) := s.pool.recycle hasRes (fun i => (s.waiters i).getId) it
  let s := { s with pool := p, recycling := s.recycling.erase it }
  match w with
  | none => s
  | some i =>
    let w := { s.waiters i with completions := (s.waiters i).completions ++ [.handedOver] }
    let s := { s with completing := (i, it) :: s.completing, served := s.served ++ [i] }
    s.setWaiter i w

/-- The timer handler and the stop callback: whoever erases the id completes the awaiter,
whose coroutine is resumed with an error and destroys the stop callback. -/
def State.giveUp (cause : Cause) (i : ι) (s : State ι) : State ι :=
  let (p, removed) := s.pool.removeAwaiter (s.waiters i).getId
  if removed then
    let w := { s.waiters i with
      stopCb := false, completions := (s.waiters i).completions ++ [cause] }
    let s := { s with pool := p }
    s.setWaiter i w
  else s

def step (hasRes : Bool) (opts : ι → Options) (s : State ι) : Event ι → Option (State ι)
  | .tryAcquire =>
    let (p, h) := s.pool.tryAcquire hasRes
    let s := { s with pool := p }
    some (s.addHolder h)
  | .acquire i addr stopRequested =>
    if (s.waiters i).begun then none else s.acquire hasRes (opts i) i addr stopRequested
  -- from here on the holder does not count: it is invalid once `recycle` returns
  | .recycle k =>
    match s.holders[k]? with
    | none => none
    | some h =>
      if h.valid then
        some { s with holders := s.holders.set k .empty, recycling := h.it :: s.recycling }
      else some s
  | .recycleLocked it => if it ∈ s.recycling then some (s.recycleLocked hasRes it) else none
  | .complete i it =>
    if (i, it) ∈ s.completing then
      some { s with completing := s.completing.erase (i, it), posted := (i, it) :: s.posted }
    else none
  | .resume i it =>
    if (i, it) ∈ s.posted then
      let w := { s.waiters i with stopCb := false }
      let s := { s with posted := s.posted.erase (i, it) }
      some ((s.setWaiter i w).addHolder ⟨true, it⟩)
    else none
  | .timeout i =>
    let w := s.waiters i
    if w.timer then some ((s.setWaiter i { w with timer := false }).giveUp .timeout i) else none
  | .stop i =>
    let w := s.waiters i
    if w.stopCb then some ((s.setWaiter i { w with stopCb := false }).giveUp .stop i) else none
  | .newHolder => some (s.addHolder .empty)
  | .moveConstruct k =>
    match s.holders[k]? with
    | none => none
    | some h =>
      let s := { s with holders := s.holders.set k h.movedFrom }
      some (s.addHolder h)
  | .moveAssign j k =>
    match s.holders[j]?, s.holders[k]? with
    | some a, some b => some { s with holders := (s.holders.set j b).set k a }
    | _, _ => none
  | .clearUnused => if hasRes then some { s with pool := s.pool.clearUnused } else none
  | .reserve n => some { s with pool := s.pool.reserve hasRes n }
  | .reserveBy scaled maxCap =>
    some { s with pool := s.pool.reserveBy hasRes scaled maxCap }
  | .createAll => if hasRes then some { s with pool := s.pool.createAll } else none

end Step

end Jkl.Async.ResPool
