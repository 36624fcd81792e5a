import Jkl.Lib.Intrusive
import Jkl.Lib.Run
import Mathlib.Data.Fintype.Basic
import Mathlib.Algebra.Group.Nat.Defs

/-! `__stop_state` with the `stop_source`s, `stop_token`s and `stop_callback`s of any number of
threads. A step is one atomic operation or one plain access of one thread; the threads
interleave in any way, in one order that all of them see. -/
namespace Jkl.StopState

section Word

/-! The word of the state: bit 0 is the request, bit 1 the lock, then 31 bits count the tokens
and 31 bits the sources. -/

def stopRequestedFlag : ℕ := 1

def lockedFlag : ℕ := 2

def tokenRefIncrement : ℕ := 4

def sourceRefIncrement : ℕ := 2 ^ 33

/-- `a - b` of `std::uint64_t`. -/
def sub64 (a b : ℕ) : ℕ := (a + (2 ^ 64 - b)) % 2 ^ 64

def add64 (a b : ℕ) : ℕ := (a + b) % 2 ^ 64

def isLocked (w : ℕ) : Bool := w &&& lockedFlag != 0

def isStopRequested (w : ℕ) : Bool := w &&& stopRequestedFlag != 0

def isStopRequestable (w : ℕ) : Bool := isStopRequested w || decide (sourceRefIncrement ≤ w)

end Word

/-- What a `stop_callback` holds beside its links: `__isRemoved_`,
`__callbackFinishedExecuting_`, and whether its `__state_` is not null. -/
structure Callback where
  isRemoved : Option ℕ
  callbackFinishedExecuting : Bool
  state : Bool
deriving DecidableEq, Repr

/-- The token a `stop_callback` is constructed from. -/
inductive Arg (K : Type) where
  | copied (k : K)
  | moved (k : K)
deriving DecidableEq, Repr

/-- Where a call is. `old` is `__oldState`, before the first load it is `none`; `k` is the source
or the token that the call goes through. -/
inductive Frame (C K : Type) where
  /-- `__try_lock_and_signal_until_signalled` -/
  | signal (k : K) (old : Option ℕ)
  | setThread (k : K)
  | dequeue (k : K)
  | unlockToRun (k : K) (cb : C) (anyMore : Bool)
  | mark (k : K) (cb : C) (anyMore : Bool)
  /-- In `__cb->__execute()`. -/
  | running (k : K) (cb : C) (anyMore : Bool) (isRemoved : ℕ)
  | clearRemoved (k : K) (cb : C) (anyMore : Bool) (isRemoved : ℕ)
  | storeFinished (k : K) (cb : C) (anyMore : Bool) (isRemoved : ℕ)
  | relock (k : K) (old : Option ℕ)
  | unlockToReturn (k : K)
  /-- `__try_add_callback` -/
  | tryAdd (tk : Arg K) (cb : C) (old : Option ℕ)
  /-- In the `__cb->__execute()` of `__try_add_callback`. -/
  | executing (tk : Arg K) (cb : C)
  | push (tk : Arg K) (cb : C)
  | unlockAdded (tk : Arg K) (cb : C)
  | added (tk : Arg K) (cb : C)
  /-- `__remove_callback` -/
  | lockToRemove (cb : C) (old : Option ℕ)
  | unlink (cb : C)
  | unlockRemoved (cb : C)
  | unlockNotFound (cb : C)
  | checkThread (cb : C)
  | awaitFinished (cb : C)
  | removeReference (cb : C)
  /-- `delete this`, in the destructor of the callback, if any. -/
  | deleteState (cb : Option C)
  /-- At the end of `~stop_callback`. -/
  | destroyed (cb : C)
deriving DecidableEq, Repr

/-- What has become of a `stop_callback`. -/
inductive Phase (T : Type) where
  | unborn
  | constructing (t : T)
  | alive
  | destroying (t : T)
  | dead
deriving DecidableEq, Repr

/-- The shared state, the memory of the callbacks and of the flags that `__request_stop` has on
its stack, the calls of every thread, innermost first, and the tokens and sources that refer to
the state. What comes after these is history that no call reads. -/
structure State (T C K : Type) where
  word : ℕ
  links : Intrusive.Links C Callback
  signallingThread : Option T
  deleted : Bool
  flags : ℕ → Option Bool
  nextFlag : ℕ
  stack : T → List (Frame C K)
  tokens : List K
  sources : List K
  phase : C → Phase T
  /-- Who holds the lock. -/
  holder : Option T
  /-- Whose `__request_stop` set the flag. -/
  winner : Option T
  /-- Who has to delete the state. -/
  deleter : Option T
  /-- The callbacks in the list. -/
  queue : List C
  /-- The callback that `__request_stop` has taken out of the list and may still use. -/
  current : Option C
  /-- The callbacks that a token reference is counted for. -/
  refs : List C
  /-- How often a callback was called. -/
  starts : C → ℕ
  /-- How often `__request_stop` returned true. -/
  wins : ℕ

inductive Event (T C K : Type) where
  | requestStop (t : T) (k : K)
  | construct (t : T) (tk : Arg K) (cb : C)
  | destroy (t : T) (cb : C)
  | copyToken (t : T) (k new : K)
  | getToken (t : T) (k new : K)
  | copySource (t : T) (k new : K)
  | dropToken (t : T) (k : K)
  | dropSource (t : T) (k : K)
  /-- The innermost call of the thread takes a step; a callback that is called returns, and a
  `compare_exchange_weak` may fail although the word is as expected. -/
  | go (t : T) (spurious : Bool)

namespace Frame

variable {C K : Type}

/-- The token or the source that the call goes through. -/
def handle : Frame C K → Option K
  | .signal k _ | .setThread k | .dequeue k | .unlockToRun k _ _ | .mark k _ _
  | .running k _ _ _ | .clearRemoved k _ _ _ | .storeFinished k _ _ _ | .relock k _
  | .unlockToReturn k => some k
  | .tryAdd tk _ _ | .executing tk _ | .push tk _ | .unlockAdded tk _ | .added tk _ =>
    match tk with
    | .copied k => some k
    | .moved k => some k
  | _ => none

/-- A callback is called here. -/
def runs : Frame C K → Bool
  | .running .. | .executing .. => true
  | _ => false

end Frame

namespace State

variable {T C K : Type}

section Calls

variable [DecidableEq T] [DecidableEq C] [DecidableEq K] (s : State T C K)

/-- A new `stop_source`, `k`. -/
def init (k : K) : State T C K :=
  { word := sourceRefIncrement, links := ⟨none, fun _ => none⟩, signallingThread := none
    deleted := false, flags := fun _ => none, nextFlag := 0, stack := fun _ => []
    tokens := [], sources := [k], phase := fun _ => .unborn, holder := none, winner := none
    deleter := none, queue := [], current := none, refs := [], starts := fun _ => 0, wins := 0 }

/-- The word, unless the state is deleted. -/
def load : Option ℕ := if s.deleted then none else some s.word

def goto (t : T) (fs : List (Frame C K)) : State T C K :=
  { s with stack := Function.update s.stack t fs }

/-- `compare_exchange_weak` of `old`, unless `old` was locked: then, and when it fails, the word
is loaded. -/
def exchange (t : T) (spurious : Bool) (old : ℕ) (retry : ℕ → Frame C K) (locked : State T C K)
    (rest : List (Frame C K)) : Option (State T C K) := do
  let w ← s.load
  if isLocked old || spurious || w != old then some (s.goto t (retry w :: rest))
  else some locked

/-- No call goes through the token or the source. -/
def Unused (k : K) : Prop := ∀ t, some k ∉ (s.stack t).map Frame.handle

instance instDecidableUnused [Fintype T] (k : K) : Decidable (s.Unused k) :=
  inferInstanceAs (Decidable (∀ t, some k ∉ (s.stack t).map Frame.handle))

/-- The thread is in no call, or in a callback. -/
def idle (t : T) : Bool := (s.stack t).head?.all Frame.runs

/-- The constructor comes to its end without a registration; a token that was to be moved stays
where it was. -/
def notAdded (t : T) (tk : Arg K) (cb : C) (rest : List (Frame C K)) : State T C K :=
  match tk with
  | .copied _ => { s with phase := Function.update s.phase cb .alive }.goto t rest
  | .moved k =>
    { s with
      phase := Function.update s.phase cb .alive
      tokens := k :: s.tokens
      refs := s.refs.erase cb }.goto t rest

/-- What follows the call of a callback: the next one, or the end of `__request_stop`. -/
def afterRun (t : T) (k : K) (anyMore : Bool) (rest : List (Frame C K)) : State T C K :=
  if anyMore then s.goto t (.relock k none :: rest)
  else { s with wins := s.wins + 1 }.goto t rest

/-- What follows a decrement of the word from `w`: the state is deleted if `w` is below `least`. -/
def release (t : T) (w least : ℕ) (cb : Option C) (rest : List (Frame C K)) : State T C K :=
  if w < least then { s with deleter := some t }.goto t (.deleteState cb :: rest)
  else s.goto t (cb.toList.map Frame.destroyed ++ rest)

/-- The next step of the innermost call; `none` if it uses what is not there. -/
def advance (t : T) (spurious : Bool) (rest : List (Frame C K)) :
    Frame C K → Option (State T C K)
  | .signal k none => do
    let w ← s.load
    some (s.goto t (.signal k (some w) :: rest))
  | .signal k (some old) =>
    if isStopRequested old then some (s.goto t rest)
    else s.exchange t spurious old (fun w => .signal k (some w))
      ({ s with
        word := old ||| stopRequestedFlag ||| lockedFlag
        holder := some t
        winner := some t }.goto t (.setThread k :: rest)) rest
  | .setThread k => do
    let _ ← s.load
    some ({ s with signallingThread := some t }.goto t (.dequeue k :: rest))
  | .dequeue k => do
    let _ ← s.load
    match s.links.head with
    | none => some (s.goto t (.unlockToReturn k :: rest))
    | some cb =>
      let links ← s.links.popFront cb
      some ({ s with links, queue := s.queue.tail, current := some cb }.goto t
        (.unlockToRun k cb links.head.isSome :: rest))
  | .unlockToRun k cb anyMore => do
    let w ← s.load
    some ({ s with word := sub64 w lockedFlag, holder := none }.goto t
      (.mark k cb anyMore :: rest))
  | .mark k cb anyMore => do
    let x ← s.links.cell cb
    some ({ s with
      links := s.links.setCell cb
        (some { x with data := { x.data with isRemoved := some s.nextFlag } })
      flags := Function.update s.flags s.nextFlag (some false)
      nextFlag := s.nextFlag + 1
      starts := Function.update s.starts cb (s.starts cb + 1) }.goto t
        (.running k cb anyMore s.nextFlag :: rest))
  | .running k cb anyMore isRemoved => do
    let removed ← s.flags isRemoved
    if removed then
      some ({ s with flags := Function.update s.flags isRemoved none }.afterRun t k anyMore rest)
    else some (s.goto t (.clearRemoved k cb anyMore isRemoved :: rest))
  | .clearRemoved k cb anyMore isRemoved => do
    let x ← s.links.cell cb
    some ({ s with
      links := s.links.setCell cb
        (some { x with data := { x.data with isRemoved := none } }) }.goto t
          (.storeFinished k cb anyMore isRemoved :: rest))
  | .storeFinished k cb anyMore isRemoved => do
    let x ← s.links.cell cb
    some ({ s with
      links := s.links.setCell cb
        (some { x with data := { x.data with callbackFinishedExecuting := true } })
      flags := Function.update s.flags isRemoved none
      current := none }.afterRun t k anyMore rest)
  | .relock k none => do
    let w ← s.load
    some (s.goto t (.relock k (some w) :: rest))
  | .relock k (some old) =>
    s.exchange t spurious old (fun w => .relock k (some w))
      ({ s with word := old ||| lockedFlag, holder := some t }.goto t (.dequeue k :: rest)) rest
  | .unlockToReturn _ => do
    let w ← s.load
    some ({ s with word := sub64 w lockedFlag, holder := none, wins := s.wins + 1 }.goto t rest)
  | .tryAdd tk cb none => do
    let w ← s.load
    some (s.goto t (.tryAdd tk cb (some w) :: rest))
  | .tryAdd tk cb (some old) =>
    if isStopRequested old then do
      let _ ← s.links.cell cb
      some ({ s with starts := Function.update s.starts cb (s.starts cb + 1) }.goto t
        (.executing tk cb :: rest))
    else if !isStopRequestable old then some (s.notAdded t tk cb rest)
    else s.exchange t spurious old (fun w => .tryAdd tk cb (some w))
      ({ s with word := old ||| lockedFlag, holder := some t }.goto t (.push tk cb :: rest)) rest
  | .executing tk cb => some (s.notAdded t tk cb rest)
  | .push tk cb => do
    let _ ← s.load
    let links ← s.links.pushFront cb
    some ({ s with links, queue := cb :: s.queue }.goto t (.unlockAdded tk cb :: rest))
  | .unlockAdded tk cb => do
    let w ← s.load
    match tk with
    | .copied _ =>
      some ({ s with
        word := sub64 w (sub64 lockedFlag tokenRefIncrement)
        holder := none
        refs := cb :: s.refs }.goto t (.added tk cb :: rest))
    | .moved _ =>
      some ({ s with word := sub64 w lockedFlag, holder := none }.goto t (.added tk cb :: rest))
  | .added _ cb => do
    let x ← s.links.cell cb
    some ({ s with
      links := s.links.setCell cb (some { x with data := { x.data with state := true } })
      phase := Function.update s.phase cb .alive }.goto t rest)
  | .lockToRemove cb none => do
    let w ← s.load
    some (s.goto t (.lockToRemove cb (some w) :: rest))
  | .lockToRemove cb (some old) =>
    s.exchange t spurious old (fun w => .lockToRemove cb (some w))
      ({ s with word := old ||| lockedFlag, holder := some t }.goto t (.unlink cb :: rest)) rest
  | .unlink cb => do
    let _ ← s.load
    let x ← s.links.cell cb
    if x.prev.isSome then do
      let links ← s.links.unlink cb
      some ({ s with links, queue := s.queue.erase cb }.goto t (.unlockRemoved cb :: rest))
    else some (s.goto t (.unlockNotFound cb :: rest))
  | .unlockRemoved cb => do
    let w ← s.load
    some ({ s with
      word := sub64 w (lockedFlag + tokenRefIncrement)
      holder := none
      refs := s.refs.erase cb }.release t w
        (lockedFlag + tokenRefIncrement + tokenRefIncrement) (some cb) rest)
  | .unlockNotFound cb => do
    let w ← s.load
    some ({ s with word := sub64 w lockedFlag, holder := none }.goto t (.checkThread cb :: rest))
  | .checkThread cb => do
    let _ ← s.load
    if s.signallingThread = some t then do
      let x ← s.links.cell cb
      match x.data.isRemoved with
      | none => some (s.goto t (.removeReference cb :: rest))
      | some n => do
        let _ ← s.flags n
        some ({ s with flags := Function.update s.flags n (some true), current := none }.goto t
          (.removeReference cb :: rest))
    else some (s.goto t (.awaitFinished cb :: rest))
  | .awaitFinished cb => do
    let x ← s.links.cell cb
    if x.data.callbackFinishedExecuting then some (s.goto t (.removeReference cb :: rest))
    else some s
  | .removeReference cb => do
    let w ← s.load
    some ({ s with word := sub64 w tokenRefIncrement, refs := s.refs.erase cb }.release t w
      (tokenRefIncrement + tokenRefIncrement) (some cb) rest)
  | .deleteState cb =>
    if s.deleted then none
    else some ({ s with deleted := true }.goto t (cb.toList.map Frame.destroyed ++ rest))
  | .destroyed cb => do
    let _ ← s.links.cell cb
    some ({ s with
      links := s.links.setCell cb none
      phase := Function.update s.phase cb .dead }.goto t rest)

/-- The constructor of a `stop_callback` begins. -/
def construct (t : T) (tk : Arg K) (cb : C) : State T C K :=
  let links := s.links.setCell cb (some ⟨none, none, ⟨none, false, false⟩⟩)
  let phase := Function.update s.phase cb (.constructing t)
  match tk with
  | .copied _ => { s with links, phase }.goto t (.tryAdd tk cb none :: s.stack t)
  | .moved k =>
    { s with links, phase, tokens := s.tokens.erase k, refs := cb :: s.refs }.goto t
      (.tryAdd tk cb none :: s.stack t)

/-- The token of a constructor can be used so: another call may go through a token that is
copied, but not through one that is moved from. -/
def Fits (tk : Arg K) : Prop :=
  match tk with
  | .copied k => k ∈ s.tokens
  | .moved k => k ∈ s.tokens ∧ s.Unused k

end Calls

section Events

variable [Fintype T] [DecidableEq T] [DecidableEq C] [DecidableEq K] (s : State T C K)

instance instDecidableFits : (tk : Arg K) → Decidable (s.Fits tk)
  | .copied k => inferInstanceAs (Decidable (k ∈ s.tokens))
  | .moved k => inferInstanceAs (Decidable (k ∈ s.tokens ∧ s.Unused k))

/-- One event: `none` if it cannot happen, because a thread is not at that place or the objects
that it uses are not there, and `some none` if it is undefined behaviour. -/
def attempt : Event T C K → Option (Option (State T C K))
  | .requestStop t k =>
    if s.idle t ∧ k ∈ s.sources then some (some (s.goto t (.signal k none :: s.stack t)))
    else none
  | .construct t tk cb =>
    if s.idle t ∧ s.phase cb = .unborn ∧ s.Fits tk then some (some (s.construct t tk cb))
    else none
  | .destroy t cb =>
    if s.idle t ∧ s.phase cb = .alive then
      some ((s.links.cell cb).map fun x =>
        { s with phase := Function.update s.phase cb (.destroying t) }.goto t
          ((if x.data.state then .lockToRemove cb none else .destroyed cb) :: s.stack t))
    else none
  | .copyToken t k new =>
    if s.idle t ∧ k ∈ s.tokens ∧ new ∉ s.tokens ∧ s.Unused new then
      some (s.load.map fun w =>
        { s with word := add64 w tokenRefIncrement, tokens := new :: s.tokens })
    else none
  | .getToken t k new =>
    if s.idle t ∧ k ∈ s.sources ∧ new ∉ s.tokens ∧ s.Unused new then
      some (s.load.map fun w =>
        { s with word := add64 w tokenRefIncrement, tokens := new :: s.tokens })
    else none
  | .copySource t k new =>
    if s.idle t ∧ k ∈ s.sources ∧ new ∉ s.sources ∧ s.Unused new then
      some (s.load.map fun w =>
        { s with word := add64 w sourceRefIncrement, sources := new :: s.sources })
    else none
  | .dropToken t k =>
    if s.idle t ∧ k ∈ s.tokens ∧ s.Unused k then
      some (s.load.map fun w =>
        { s with word := sub64 w tokenRefIncrement, tokens := s.tokens.erase k }.release t w
          (tokenRefIncrement + tokenRefIncrement) none (s.stack t))
    else none
  | .dropSource t k =>
    if s.idle t ∧ k ∈ s.sources ∧ s.Unused k then
      some (s.load.map fun w =>
        { s with word := sub64 w sourceRefIncrement, sources := s.sources.erase k }.release t w
          (tokenRefIncrement + sourceRefIncrement) none (s.stack t))
    else none
  | .go t spurious =>
    match s.stack t with
    | [] => none
    | f :: rest => some (s.advance t spurious rest f)

/-- The state after an event. -/
def step (e : Event T C K) : Option (State T C K) := (s.attempt e).join

end Events

end State

end Jkl.StopState
