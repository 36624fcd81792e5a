import Jkl.Lib.CallStack
import Mathlib.Logic.Function.Basic

/-! `atask`: coroutines that await one another, each with a pointer to the one that awaits it. -/
namespace Jkl.Task

abbrev CoroId := ℕ

abbrev SourceId := ℕ

variable {σ V E R : Type}

/-- What becomes of a body: a value, none for `void`, or an exception. -/
inductive Outcome (V E : Type) where
  | returned (v : Option V)
  | thrown (e : E)

/-- What a body does next. -/
inductive Action (σ V E R : Type) where
  | coReturn (v : Option V)
  | throw (e : E)
  /-- `co_await f(…)` of a task, with what follows. -/
  | coAwait (b : σ) (k : Outcome V E → σ)
  /-- `co_await` of anything else that suspends, and is resumed with a result. -/
  | suspend (k : R → σ)
  /-- `co_await stop_requested()`. -/
  | stopRequested (k : Bool → σ)
  /-- `(co_await get_promise{}).request_stop()`. -/
  | requestStop (b : σ)

/-- The coroutines of a program. A state of `σ` is a body with the place where it is. -/
structure Program (σ V E R : Type) where
  act : σ → Action σ V E R
  isVoid : σ → Bool
  coReturn : ∀ {b v}, act b = .coReturn v → v.isNone = isVoid b
  coAwait : ∀ {b c k}, act b = .coAwait c k → ∀ o, isVoid (k o) = isVoid b
  suspend : ∀ {b k}, act b = .suspend k → ∀ r, isVoid (k r) = isVoid b
  stopRequested : ∀ {b k}, act b = .stopRequested k → ∀ a, isVoid (k a) = isVoid b
  requestStop : ∀ {b c}, act b = .requestStop c → isVoid c = isVoid b

/-! The promise. -/

/-- `result_variant`. -/
inductive ResultVariant (V E : Type) where
  | monostate
  | exception (e : E)
  | value (v : V)

def ResultVariant.index : ResultVariant V E → ℕ
  | monostate => 0
  | exception _ => 1
  | value _ => 2

inductive Fault where
  /-- The assertions, by the function they are in. -/
  | returnValue
  | setContinuation
  | start
  | result
  /-- A coroutine is used that is gone. -/
  | destroyed
  /-- A coroutine is resumed or destroyed that is not suspended there. -/
  | notSuspended
deriving DecidableEq, Repr

/-- `apromise`. -/
structure Promise (V E : Type) where
  isVoid : Bool
  rv : ResultVariant V E
  continuation : Option CoroId
  stpSrc : Option SourceId

namespace Promise

def fresh (isVoid : Bool) : Promise V E := ⟨isVoid, .monostate, none, none⟩

def stopPossible (p : Promise V E) : Bool := p.stpSrc.isSome

def returnValue (p : Promise V E) (v : V) : Except Fault (Promise V E) :=
  if p.rv.index = 0 then .ok { p with rv := .value v } else .error .returnValue

/-- `return_value` or `return_void`. -/
def coReturn (p : Promise V E) : Option V → Except Fault (Promise V E)
  | some v => p.returnValue v
  | none => .ok p

def unhandledException (p : Promise V E) (e : E) : Promise V E := { p with rv := .exception e }

def setContinuation (p : Promise V E) (c : CoroId) (stpSrc : Option SourceId) :
    Except Fault (Promise V E) :=
  if p.continuation = none ∧ p.stopPossible = false then
    .ok { p with continuation := some c, stpSrc := stpSrc }
  else .error .setContinuation

def result (p : Promise V E) : Except Fault (Outcome V E) :=
  match p.rv with
  | .exception e => .ok (.thrown e)
  | .monostate => if p.isVoid then .ok (.returned none) else .error .result
  | .value v => if p.isVoid then .error .result else .ok (.returned (some v))

end Promise

/-! Coroutines. -/

/-- Where a coroutine is. -/
inductive Point (σ V E R : Type) where
  | initial (b : σ)
  | running (b : σ)
  | awaiting (h : CoroId) (k : Outcome V E → σ)
  /-- Resumed there: `await_resume` comes next. -/
  | resuming (h : CoroId) (k : Outcome V E → σ)
  | suspended (k : R → σ)
  | final

/-- A coroutine. `task` is not in the source: the task at the top of the `co_await`s that it is
below, which is itself where the `atask` is not a temporary of an awaiting coroutine. -/
structure Coro (σ V E R : Type) where
  promise : Promise V E
  point : Point σ V E R
  task : CoroId

structure State (σ V E R : Type) where
  heap : CoroId → Option (Coro σ V E R)
  next : CoroId
  stopRequested : SourceId → Bool

def State.init : State σ V E R := ⟨fun _ => none, 0, fun _ => false⟩

namespace State

def set (s : State σ V E R) (c : CoroId) (co : Coro σ V E R) : State σ V E R :=
  { s with heap := Function.update s.heap c (some co) }

def erase (s : State σ V E R) (c : CoroId) : State σ V E R :=
  { s with heap := Function.update s.heap c none }

/-- A call of a coroutine function: the body does not start yet. -/
def create (P : Program σ V E R) (s : State σ V E R) (b : σ) (task : CoroId) : State σ V E R :=
  { s.set s.next ⟨.fresh (P.isVoid b), .initial b, task⟩ with next := s.next + 1 }

/-- `resume()` of a handle. -/
def resume (s : State σ V E R) (c : CoroId) : Except Fault (State σ V E R) :=
  match s.heap c with
  | none => .error .destroyed
  | some co =>
    match co.point with
    | .initial b => .ok (s.set c { co with point := .running b })
    | .awaiting h k => .ok (s.set c { co with point := .resuming h k })
    | _ => .error .notSuspended

def tailResume (s : State σ V E R) : Option CoroId → Except Fault (State σ V E R)
  | some c => s.resume c
  | none => .ok s

def finalSuspend (s : State σ V E R) (c : CoroId) (co : Coro σ V E R) (p : Promise V E) :
    Except Fault (State σ V E R) :=
  (s.set c { co with promise := p, point := .final }).tailResume p.continuation

/-- `await_suspend` of the `atask` with the handle `h`, for a coroutine of which the promise has
`stpSrc`. -/
def awaitSuspend (s : State σ V E R) (h c : CoroId) (stpSrc : Option SourceId) :
    Except Fault (State σ V E R) :=
  match s.heap h with
  | none => .error .destroyed
  | some co => do
    let p ← co.promise.setContinuation c stpSrc
    (s.set h { co with promise := p }).tailResume (some h)

/-- `~atask`. -/
def destroy (s : State σ V E R) (c : CoroId) : Except Fault (State σ V E R) :=
  match s.heap c with
  | none => .error .destroyed
  | some co =>
    match co.point with
    | .initial _ => .ok (s.erase c)
    | .final => .ok (s.erase c)
    | _ => .error .notSuspended

/-- `await_resume` of the `atask` with the handle `h`, after which the `atask` goes. -/
def awaitResume (s : State σ V E R) (h c : CoroId) (co : Coro σ V E R) (k : Outcome V E → σ) :
    Except Fault (State σ V E R) :=
  match s.heap h with
  | none => .error .destroyed
  | some child => do
    let o ← child.promise.result
    let s ← s.destroy h
    return s.set c { co with point := .running (k o) }

def isStopRequested (s : State σ V E R) : Option SourceId → Bool
  | some src => s.stopRequested src
  | none => false

def requestStop (s : State σ V E R) : Option SourceId → State σ V E R
  | some src => { s with stopRequested := Function.update s.stopRequested src true }
  | none => s

/-- A running coroutine goes on. -/
def proceed (P : Program σ V E R) (s : State σ V E R) (c : CoroId) (co : Coro σ V E R) (b : σ) :
    Except Fault (State σ V E R) :=
  match P.act b with
  | .coReturn v => do
    let p ← co.promise.coReturn v
    s.finalSuspend c co p
  | .throw e => s.finalSuspend c co (co.promise.unhandledException e)
  | .coAwait d k =>
    ((s.create P d co.task).set c { co with point := .awaiting s.next k }).awaitSuspend
      s.next c co.promise.stpSrc
  | .suspend k => .ok (s.set c { co with point := .suspended k })
  | .stopRequested k =>
    .ok (s.set c { co with point := .running (k (s.isStopRequested co.promise.stpSrc)) })
  | .requestStop d => .ok ((s.requestStop co.promise.stpSrc).set c { co with point := .running d })

end State

inductive Event (σ R : Type) where
  /-- A task is made, outside of any coroutine. -/
  | create (b : σ)
  /-- `start(s)`; without a source it is `std::nostopstate`. -/
  | start (c : CoroId) (src : Option SourceId)
  /-- A coroutine goes on to where it awaits, asks, returns or throws next. -/
  | advance (c : CoroId)
  /-- Whatever a coroutine is suspended for resumes it. -/
  | complete (c : CoroId) (r : R)
  | requestStop (src : SourceId)
  /-- A task goes that is done or was not started. -/
  | drop (c : CoroId)

def Point.isInitial : Point σ V E R → Bool
  | initial _ => true
  | _ => false

def Point.isFinal : Point σ V E R → Bool
  | final => true
  | _ => false

/-- `start`. -/
def State.start (s : State σ V E R) (c : CoroId) (co : Coro σ V E R) (src : Option SourceId) :
    Except Fault (State σ V E R) :=
  if co.promise.stopPossible then .error .start
  else (s.set c { co with promise := { co.promise with stpSrc := src } }).resume c

/-- None where the event is not possible, or is left to the holder of the task: it starts the task
once, and drops it before that or when it is done. Only what a coroutine is suspended for resumes it,
once. -/
def State.step (P : Program σ V E R) (s : State σ V E R) :
    Event σ R → Option (Except Fault (State σ V E R))
  | .create b => some (.ok (s.create P b s.next))
  | .start c src =>
    match s.heap c with
    | none => none
    | some co =>
      if co.task = c ∧ co.point.isInitial then some (s.start c co src) else none
  | .advance c =>
    match s.heap c with
    | none => none
    | some co =>
      match co.point with
      | .running b => some (s.proceed P c co b)
      | .resuming h k => some (s.awaitResume h c co k)
      | _ => none
  | .complete c r =>
    match s.heap c with
    | none => none
    | some co =>
      match co.point with
      | .suspended k => some (.ok (s.set c { co with point := .running (k r) }))
      | _ => none
  | .requestStop src => some (.ok (s.requestStop (some src)))
  | .drop c =>
    match s.heap c with
    | none => none
    | some co =>
      if co.task = c ∧ (co.point.isInitial ∨ co.point.isFinal) then some (s.destroy c) else none

/-- The steps without a fault. -/
def State.next? (P : Program σ V E R) (s : State σ V E R) (e : Event σ R) :
    Option (State σ V E R) :=
  (s.step P e).bind fun r => r.toOption

def Reachable (P : Program σ V E R) (s : State σ V E R) : Prop :=
  ∃ es, Steps.run (State.next? P) .init es = some s

/-! What a task does in direct style. -/

/-- What is seen of a task. -/
inductive Label (R : Type) where
  | resumed (r : R)
  | stopRequested (a : Bool)
  | requestStop

/-- `co_await` of a task as a call. -/
def Program.direct (P : Program σ V E R) (b : σ) : CallStack.Act σ (Label R) (Outcome V E) :=
  match P.act b with
  | .coReturn v => .ret (.returned v)
  | .throw e => .ret (.thrown e)
  | .coAwait c k => .call c k
  | .suspend k => .vis fun
    | .resumed r => some (k r)
    | _ => none
  | .stopRequested k => .vis fun
    | .stopRequested a => some (k a)
    | _ => none
  | .requestStop c => .vis fun
    | .requestStop => some c
    | _ => none

/-- What an event shows of a task. -/
def State.label (P : Program σ V E R) (s : State σ V E R) (t : CoroId) :
    Event σ R → Option (Label R)
  | .advance c =>
    match s.heap c with
    | none => none
    | some co =>
      if co.task = t then
        match co.point with
        | .running b =>
          match P.act b with
          | .stopRequested _ => some (.stopRequested (s.isStopRequested co.promise.stpSrc))
          | .requestStop _ => some .requestStop
          | _ => none
        | _ => none
      else none
  | .complete c r =>
    match s.heap c with
    | none => none
    | some co => if co.task = t then some (.resumed r) else none
  | _ => none

/-- What a run shows of a task. -/
def State.labels (P : Program σ V E R) (t : CoroId) : State σ V E R → List (Event σ R) →
    List (Label R)
  | _, [] => []
  | s, e :: es =>
    (s.label P t e).toList ++ match s.next? P e with
      | some s' => labels P t s' es
      | none => []

end Jkl.Task
