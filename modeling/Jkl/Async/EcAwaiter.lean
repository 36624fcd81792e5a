import Jkl.Lib.Run
import Mathlib.Logic.Function.Basic

/-! `ec_awaiter`: one `co_await` of an asynchronous operation on an object, with its
optional timer and stop callback. Several awaiters may be pending on one object. The
executor delivers queued handlers in any order, and other threads may ask to stop at any
time, also while `await_suspend` is still at work. A handler is one step: a handler that
loses the flag touches nothing, and `_stopCb.reset()` waits for a running callback. -/
namespace Jkl.Async

/-- `aerror_code`: no error, the two codes the awaiter knows, any other. -/
inductive Ec where
  | none
  | operationAborted
  | timeout
  | other (n : ℕ)
  deriving DecidableEq, Repr

/-- The template arguments `EnableStop` and `has_expiryDur`. -/
structure Options where
  enableStop : Bool
  hasExpiry : Bool
  deriving DecidableEq, Repr

/-- How far `await_suspend` is. `declined` is its early `return false`. -/
inductive Phase where
  | fresh
  | declined
  | initiated
  | waiting
  | suspended
  deriving DecidableEq, Repr

/-- The operation as the executor sees it. The result of a completion is its code and its
values. -/
inductive Op (τ : Type*) where
  | absent
  | pending
  | queued (ec : Ec) (r : τ)
  | delivered (ec : Ec)
  deriving DecidableEq, Repr

/-- A pending operation completes with `operation_aborted`, a queued result stays. -/
def Op.cancel {τ : Type*} [Inhabited τ] : Op τ → Op τ
  | .pending => .queued .operationAborted default
  | op => op

inductive Timer where
  | absent
  | pending
  | queued (ec : Ec)
  | delivered
  deriving DecidableEq, Repr

/-- One awaiter with what the executor and the stop source hold of it. `resumed` counts
`_coro.resume()`; `stale` records an access to the awaiter from a handler after that. -/
structure Awaiter (τ : Type*) where
  phase : Phase
  op : Op τ
  timer : Timer
  stopCb : Bool
  stopRequested : Bool
  anyReached : Bool
  ec : Ec
  t : Option τ
  resumed : ℕ
  stale : Bool
  deriving DecidableEq, Repr

namespace Awaiter

variable {τ : Type*}

def init : Awaiter τ :=
  { phase := .fresh, op := .absent, timer := .absent, stopCb := false, stopRequested := false,
    anyReached := false, ec := .none, t := none, resumed := 0, stale := false }

/-- A handler goes on to use `this`. -/
def touch (a : Awaiter τ) : Awaiter τ :=
  { a with stale := a.stale || decide (0 < a.resumed) }

def setOp (a : Awaiter τ) (op : Op τ) : Awaiter τ := { a with op := op }

def setTimer (a : Awaiter τ) (timer : Timer) : Awaiter τ := { a with timer := timer }

def setStopCb (a : Awaiter τ) (b : Bool) : Awaiter τ := { a with stopCb := b }

def requestStop (a : Awaiter τ) : Awaiter τ := { a with stopRequested := true }

def resume (a : Awaiter τ) : Awaiter τ := { a with resumed := a.resumed + 1 }

/-- `_timer.cancel()`: a wait that has already run out stays queued as it is. -/
def cancelTimer (a : Awaiter τ) : Awaiter τ :=
  a.setTimer (if a.timer = .pending then .queued .operationAborted else a.timer)

/-- What `cancel()` of the object does to this awaiter's operation. -/
def abortOp [Inhabited τ] (a : Awaiter τ) : Awaiter τ := a.setOp a.op.cancel

/-- The first part of `await_suspend`, up to and with `_initOp`. -/
def suspend (o : Options) (a : Awaiter τ) : Awaiter τ :=
  if o.enableStop && a.stopRequested then
    { a with phase := .declined, ec := .operationAborted }
  else { a with phase := .initiated, op := .pending }

/-- `_timer.async_wait`. -/
def asyncWait (o : Options) (a : Awaiter τ) : Awaiter τ :=
  { a with phase := .waiting, timer := if o.hasExpiry then .pending else a.timer }

/-- The handler given to `_initOp`. -/
def completionHandler (o : Options) (ec : Ec) (r : τ) (a : Awaiter τ) : Awaiter τ :=
  if ec = .operationAborted then a
  else if o.hasExpiry && a.anyReached then a
  else
    let a := a.touch
    let a := if o.hasExpiry then { a with anyReached := true }.cancelTimer else a
    let a := if o.enableStop then a.setStopCb false else a
    let a := { a with ec := ec }
    let a := if ec = .none then { a with t := some r } else a
    a.resume

/-- The handler given to `_timer.async_wait`; whether it calls `_ao.cancel()`. -/
def timerHandler (o : Options) (ec : Ec) (a : Awaiter τ) : Awaiter τ × Bool :=
  if ec ≠ .none || a.anyReached then (a, false)
  else
    let a := { a.touch with anyReached := true }
    let a := if o.enableStop then a.setStopCb false else a
    let a := { a with ec := .timeout }
    (a.resume, true)

/-- The callback given to `_stopCb`; whether it calls `_ao.cancel()`. What it captured lies
in `_stopCb`, so that the look at the flag already reads the awaiter. -/
def stopCallback (o : Options) (a : Awaiter τ) : Awaiter τ × Bool :=
  let a := a.touch
  if o.hasExpiry && a.anyReached then (a, false)
  else
    let a := if o.hasExpiry then { a with anyReached := true }.cancelTimer else a
    let a := { a with ec := .operationAborted }
    (a.resume, true)

/-- `_stopCb.emplace`, which calls back at once when the stop has been requested. -/
def emplace (o : Options) (a : Awaiter τ) : Awaiter τ × Bool :=
  let a := { a with phase := .suspended }
  if o.enableStop then
    if a.stopRequested then a.stopCallback o else (a.setStopCb true, false)
  else (a, false)

/-- `await_resume`: the error, or the value when there is one to return. -/
def await_resume (a : Awaiter τ) : Except Ec (Option τ) :=
  if a.ec = .none then .ok a.t else .error a.ec

end Awaiter

/-- What can happen to one awaiter. -/
inductive Act (τ : Type*) where
  | suspend
  | asyncWait
  | emplace
  | complete (ec : Ec) (r : τ)
  | deliver
  | expire
  | deliverTimer
  | requestStop
  | runStop
  deriving DecidableEq, Repr

/-- The act in an awaiter of these options, when it is possible; whether `_ao.cancel()` is
called on the way. -/
def Awaiter.act {τ : Type*} (o : Options) (a : Awaiter τ) : Act τ → Option (Awaiter τ × Bool)
  | .suspend => if a.phase = .fresh then some (a.suspend o, false) else none
  | .asyncWait => if a.phase = .initiated then some (a.asyncWait o, false) else none
  | .emplace => if a.phase = .waiting then some (a.emplace o) else none
  | .complete ec r =>
    match a.op with
    | .pending => some (a.setOp (.queued ec r), false)
    | _ => none
  | .deliver =>
    match a.op with
    | .queued ec r => some ((a.setOp (.delivered ec)).completionHandler o ec r, false)
    | _ => none
  | .expire =>
    if a.timer = .pending then some (a.setTimer (.queued .none), false) else none
  | .deliverTimer =>
    match a.timer with
    | .queued ec => some ((a.setTimer .delivered).timerHandler o ec)
    | _ => none
  | .requestStop => some (a.requestStop, false)
  -- the callback is called once: it is deregistered before it runs
  | .runStop =>
    if a.stopCb && a.stopRequested then some ((a.setStopCb false).stopCallback o) else none

/-- An act of one awaiter, or `cancel()`/`close()` of an object by its user. -/
inductive Event (ι κ τ : Type*) where
  | at (i : ι) (x : Act τ)
  | cancel (o : κ)

section System

variable {ι κ τ : Type*} [DecidableEq ι] [DecidableEq κ] [Inhabited τ]

/-- `cancel()` of an object aborts the pending operation of every awaiter on it. -/
def cancelObj (obj : ι → κ) (o : κ) (s : ι → Awaiter τ) : ι → Awaiter τ :=
  fun i => if obj i = o then (s i).abortOp else s i

/-- One step of the awaiters `ι`, awaiter `i` with options `opts i` on the object `obj i`.
The cancellation a handler asks for only turns pending operations into aborted ones, which
the rest of the handler does not look at. -/
def step (opts : ι → Options) (obj : ι → κ) (s : ι → Awaiter τ) :
    Event ι κ τ → Option (ι → Awaiter τ)
  | .at i x =>
    ((s i).act (opts i) x).map fun p =>
      let s := Function.update s i p.1
      if p.2 then cancelObj obj (obj i) s else s
  | .cancel o => some (cancelObj obj o s)

/-- Nothing awaited yet. -/
def start : ι → Awaiter τ := fun _ => .init

end System

end Jkl.Async
