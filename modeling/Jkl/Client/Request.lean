import Mathlib.Tactic.Common

/-! `curl_request` and its `data_awaiter`: what the header and the write callback of a read do
with the buffers of the awaiter and the members of the request. Assertions are compiled out.
Bytes are of any type `β`. -/
namespace Jkl.Client

variable {β : Type*}

/-- `state_e`. -/
inductive StateE where
  | reseted
  | running
  | paused
  | finished
  deriving DecidableEq, Repr

def StateE.isAdded : StateE → Bool
  | .running | .paused => true
  | _ => false

inductive PauseType where
  | none
  | hd
  | wd
  deriving DecidableEq, Repr

inductive ReadType where
  | hdWd
  | hd
  | wd
  | hdUntilWd
  | wdUntilHd
  deriving DecidableEq, Repr

inductive Ec where
  | operationAborted
  | noBufferSpace
  | curl (code : ℕ)
  deriving DecidableEq, Repr

/-- `cr_buf_wrapper`: `cap` is `buf_size(_b)` of the buffer the caller gave, `data` what has
been appended; its length is `_curSize`. -/
structure BufWrapper (β : Type*) where
  readSome : Bool
  resizable : Bool
  cap : ℕ
  data : List β
  deriving DecidableEq, Repr

namespace BufWrapper

def clear (b : BufWrapper β) : BufWrapper β := { b with data := [] }

/-- `append` with `ReadSome`: as much as fits, and how much that is. -/
def appendSome (d : List β) (b : BufWrapper β) : BufWrapper β × ℕ :=
  let avl := b.cap - b.data.length
  let n := min avl d.length
  ({ b with data := b.data ++ d.take n }, n)

/-- `append` without `ReadSome`: everything, or `false`. -/
def appendAll (d : List β) (b : BufWrapper β) : Option (BufWrapper β) :=
  if !b.resizable && b.cap < b.data.length + d.length then none
  else some { b with data := b.data ++ d }

end BufWrapper

/-- The index of `get_bw`. -/
inductive BwIx where
  | one
  | two
  deriving DecidableEq, Repr

/-- `data_awaiter`, with a number of its own. `stopCb` tells whether `_stopCb` holds a callback,
`stopRequested` is the member that callback sets. `bw2` is of no interest where there is one
buffer. -/
structure Awaiter (β : Type*) where
  id : ℕ
  enableStop : Bool
  stopCb : Bool
  stopRequested : Bool
  ec : Option Ec
  bw : BufWrapper β
  bw2 : BufWrapper β
  deriving DecidableEq, Repr

namespace Awaiter

/-- `exam_stop`. -/
def examStop (w : Awaiter β) : Bool × Awaiter β :=
  if w.enableStop then (false, w)
  else if w.stopRequested then (true, { w with ec := some .operationAborted })
  else (false, w)

def getBw (w : Awaiter β) : BwIx → BufWrapper β
  | .one => w.bw
  | .two => w.bw2

def setBw (w : Awaiter β) (ix : BwIx) (b : BufWrapper β) : Awaiter β :=
  match ix with
  | .one => { w with bw := b }
  | .two => { w with bw2 := b }

end Awaiter

/-- What `CURLOPT_HEADERFUNCTION` or `CURLOPT_WRITEFUNCTION` is set to: a function that skips
the data, `resumed_write_to_bw`, the lambda of an `until` read, or `pause_when_called`. -/
inductive Callback where
  | skip
  | resumedWrite (ix : BwIx) (pt : PauseType)
  | untilOther (pt : PauseType)
  | pauseWhenCalled (pt : PauseType)
  deriving DecidableEq, Repr

/-- Which of the two callbacks curl calls. -/
inductive Kind where
  | hd
  | wd
  deriving DecidableEq, Repr

/-- `curl_request` without the awaiter it points to. -/
structure Request where
  state : StateE
  pauseType : PauseType
  writeCbDataUsed : ℕ
  headerCb : Callback
  writeCb : Callback
  deriving DecidableEq, Repr

/-- What a callback returns to curl: a number of bytes, `CURL_WRITEFUNC_PAUSE`, or `-1`. -/
inductive Ret where
  | bytes (n : ℕ)
  | pause
  | minusOne
  deriving DecidableEq, Repr

/-- Curl fails the transfer when a callback has not taken all of its `n` bytes. -/
def Ret.fails (n : ℕ) : Ret → Bool
  | .bytes m => m != n
  | .pause => false
  | .minusOne => true

namespace Request

/-- `reset_all`. -/
def reset : Request :=
  { state := .reseted, pauseType := .none, writeCbDataUsed := 0, headerCb := .skip
    writeCb := .skip }

/-- `try_mark_pause_and_schedule_resume`; the closure it posts is that of the system. -/
def tryMarkPause (pt : PauseType) (used : ℕ) (r : Request) : Request :=
  { r with pauseType := pt, writeCbDataUsed := used, state := .paused }

def releaseDataUsedOnPause (r : Request) : ℕ × Request :=
  (r.writeCbDataUsed, { r with writeCbDataUsed := 0 })

def clearPauseIfNot (pt : PauseType) (r : Request) : Request :=
  if r.pauseType ≠ pt then { r with pauseType := .none, writeCbDataUsed := 0 } else r

def callback (r : Request) : Kind → Callback
  | .hd => r.headerCb
  | .wd => r.writeCb

/-- The callback that is not `k` becomes `pause_when_called`. -/
def setOther (k : Kind) (pt : PauseType) (r : Request) : Request :=
  match k with
  | .hd => { r with writeCb := .pauseWhenCalled pt }
  | .wd => { r with headerCb := .pauseWhenCalled pt }

/-- `init`; `two` tells whether there is a second buffer. -/
def init (rt : ReadType) (two : Bool) (r : Request) : Request :=
  match rt with
  | .hdWd =>
    if two then
      { r with headerCb := .resumedWrite .one .hd, writeCb := .resumedWrite .two .wd }
    else { r with headerCb := .resumedWrite .one .hd, writeCb := .resumedWrite .one .wd }
  | .hd => { r.clearPauseIfNot .hd with headerCb := .resumedWrite .one .hd, writeCb := .skip }
  | .wd => { r.clearPauseIfNot .wd with headerCb := .skip, writeCb := .resumedWrite .one .wd }
  | .hdUntilWd => { r with headerCb := .untilOther .hd, writeCb := .skip }
  | .wdUntilHd => { r with headerCb := .skip, writeCb := .untilOther .wd }

end Request

/-- `resumed_write_to_bw`. -/
def resumedWriteToBw (ix : BwIx) (pt : PauseType) (d : List β) (w : Awaiter β) (r : Request) :
    Awaiter β × Request × Ret :=
  let (stop, w) := w.examStop
  if stop then (w, r, .minusOne)
  else if d.length = 0 then (w, r, .bytes 0)
  else
    let (prevUsed, r) := r.releaseDataUsedOnPause
    if prevUsed > d.length then (w, r, .bytes 0)
    else if (w.getBw ix).readSome then
      let m := d.length - prevUsed
      let (b, copied) := (w.getBw ix).appendSome (d.drop prevUsed)
      let w := w.setBw ix b
      -- only what this call has copied is kept as used
      if copied < m then (w, r.tryMarkPause pt copied, .pause) else (w, r, .bytes d.length)
    else
      match (w.getBw ix).appendAll (d.drop prevUsed) with
      | none => ({ w with ec := some .noBufferSpace }, r, .bytes 0)
      | some b => (w.setBw ix b, r, .bytes d.length)

/-- `pause_when_called`. -/
def pauseWhenCalled (pt : PauseType) (d : List β) (w : Awaiter β) (r : Request) :
    Awaiter β × Request × Ret :=
  let (stop, w) := w.examStop
  if stop then (w, r, .minusOne)
  else if d.length = 0 then (w, r, .bytes 0)
  else (w, r.tryMarkPause pt 0, .pause)

/-- A call of the header or the write callback with the bytes `d`. -/
def invoke (k : Kind) (d : List β) (w : Awaiter β) (r : Request) :
    Awaiter β × Request × Ret :=
  match r.callback k with
  | .skip => (w, r, .bytes d.length)
  | .resumedWrite ix pt => resumedWriteToBw ix pt d w r
  | .untilOther pt =>
    -- the other callback is set from the first call on
    resumedWriteToBw .one pt d w (r.setOther k pt)
  | .pauseWhenCalled pt => pauseWhenCalled pt d w r

section Spec

variable {k : Kind} {ix : BwIx} {pt : PauseType} {d : List β} {w w' : Awaiter β}
  {r r' : Request} {ret : Ret}

@[simp] theorem Request.setOther_state : (r.setOther k pt).state = r.state := by
  cases k <;> rfl

@[simp] theorem Request.setOther_writeCbDataUsed :
    (r.setOther k pt).writeCbDataUsed = r.writeCbDataUsed := by
  cases k <;> rfl

@[simp] theorem Awaiter.setBw_id (b : BufWrapper β) : (w.setBw ix b).id = w.id := by
  cases ix <;> rfl

@[simp] theorem Awaiter.setBw_enableStop (b : BufWrapper β) :
    (w.setBw ix b).enableStop = w.enableStop := by cases ix <;> rfl

@[simp] theorem Awaiter.setBw_stopCb (b : BufWrapper β) : (w.setBw ix b).stopCb = w.stopCb := by
  cases ix <;> rfl

@[simp] theorem Awaiter.setBw_stopRequested (b : BufWrapper β) :
    (w.setBw ix b).stopRequested = w.stopRequested := by cases ix <;> rfl

@[simp] theorem Awaiter.setBw_ec (b : BufWrapper β) : (w.setBw ix b).ec = w.ec := by
  cases ix <;> rfl

/-- With a stop flag that stays unset where nothing sets it, `exam_stop` finds nothing. -/
theorem Awaiter.examStop_eq (hflag : w.enableStop = false → w.stopRequested = false) :
    w.examStop = (false, w) := by
  unfold examStop
  cases he : w.enableStop with
  | true => simp
  | false => simp [hflag he]

/-- What `resumed_write_to_bw` comes to when there is no stop: the awaiter, the request and the
value it returns. -/
inductive Written (ix : BwIx) (pt : PauseType) (d : List β) (w : Awaiter β) (r : Request) :
    Awaiter β → Request → Ret → Prop where
  | empty (hd : d.length = 0) : Written ix pt d w r w r (.bytes 0)
  | beyond (hd : 0 < d.length) (hlt : d.length < r.writeCbDataUsed) :
      Written ix pt d w r w { r with writeCbDataUsed := 0 } (.bytes 0)
  | paused (b : BufWrapper β) (n : ℕ) (hsome : (w.getBw ix).readSome = true)
      (happ : (w.getBw ix).appendSome (d.drop r.writeCbDataUsed) = (b, n))
      (hn : n < d.length - r.writeCbDataUsed) :
      Written ix pt d w r (w.setBw ix b)
        (Request.tryMarkPause pt n { r with writeCbDataUsed := 0 }) .pause
  | some (b : BufWrapper β) (n : ℕ) (hsome : (w.getBw ix).readSome = true)
      (happ : (w.getBw ix).appendSome (d.drop r.writeCbDataUsed) = (b, n))
      (hn : d.length - r.writeCbDataUsed ≤ n) :
      Written ix pt d w r (w.setBw ix b) { r with writeCbDataUsed := 0 } (.bytes d.length)
  | full (hd : 0 < d.length) (hall : (w.getBw ix).readSome = false) :
      Written ix pt d w r { w with ec := some .noBufferSpace }
        { r with writeCbDataUsed := 0 } (.bytes 0)
  | all (b : BufWrapper β) (hall : (w.getBw ix).readSome = false)
      (happ : (w.getBw ix).appendAll (d.drop r.writeCbDataUsed) = some b) :
      Written ix pt d w r (w.setBw ix b) { r with writeCbDataUsed := 0 } (.bytes d.length)

theorem resumedWriteToBw_cases (hw : w.examStop = (false, w))
    (h : resumedWriteToBw ix pt d w r = (w', r', ret)) : Written ix pt d w r w' r' ret := by
  simp only [resumedWriteToBw, hw, Bool.false_eq_true, if_false,
    Request.releaseDataUsedOnPause] at h
  split at h
  next hd =>
    cases h
    exact .empty hd
  next hd =>
    have hpos : 0 < d.length := Nat.pos_of_ne_zero hd
    split at h
    next hlt =>
      cases h
      exact .beyond hpos hlt
    next hlt =>
      split at h
      next hsome =>
        rcases happ : (w.getBw ix).appendSome (d.drop r.writeCbDataUsed) with ⟨b, n⟩
        simp only [happ] at h
        split at h
        next hn =>
          cases h
          exact .paused b n hsome happ hn
        next hn =>
          cases h
          exact .some b n hsome happ (Nat.le_of_not_lt hn)
      next hsome =>
        have hall : (w.getBw ix).readSome = false := by simpa using hsome
        split at h
        next =>
          cases h
          exact .full hpos hall
        next b happ =>
          cases h
          exact .all b hall happ

/-- What a callback may do to the awaiter and to the state of the request: all that an awaiter
is known by stays, the request is paused exactly when curl is told so, nothing is aborted, and
the only error is that of a full buffer. -/
structure CallbackSpec (w : Awaiter β) (r : Request) (w' : Awaiter β) (r' : Request)
    (ret : Ret) : Prop where
  id : w'.id = w.id
  enableStop : w'.enableStop = w.enableStop
  stopCb : w'.stopCb = w.stopCb
  stopRequested : w'.stopRequested = w.stopRequested
  state : r'.state = if ret = .pause then .paused else r.state
  ret : ret ≠ .minusOne
  ec : w'.ec = w.ec ∨ w'.ec = some .noBufferSpace

theorem CallbackSpec.rfl {w : Awaiter β} (h : ret ≠ .pause) (hret : ret ≠ .minusOne) :
    CallbackSpec w r w r ret :=
  ⟨Eq.refl _, Eq.refl _, Eq.refl _, Eq.refl _, (if_neg h).symm, hret, .inl (Eq.refl _)⟩

theorem resumedWriteToBw_spec (ix : BwIx) (pt : PauseType) (d : List β)
    (hw : w.examStop = (false, w)) (h : resumedWriteToBw ix pt d w r = (w', r', ret)) :
    CallbackSpec w r w' r' ret := by
  cases resumedWriteToBw_cases hw h with
  | empty => exact .rfl nofun nofun
  | beyond => exact ⟨rfl, rfl, rfl, rfl, rfl, nofun, .inl rfl⟩
  | paused => exact ⟨by simp, by simp, by simp, by simp, rfl, nofun, .inl (by simp)⟩
  | some => exact ⟨by simp, by simp, by simp, by simp, rfl, nofun, .inl (by simp)⟩
  | full => exact ⟨rfl, rfl, rfl, rfl, rfl, nofun, .inr rfl⟩
  | all => exact ⟨by simp, by simp, by simp, by simp, rfl, nofun, .inl (by simp)⟩

theorem pauseWhenCalled_spec (pt : PauseType) (d : List β) (hw : w.examStop = (false, w))
    (h : pauseWhenCalled pt d w r = (w', r', ret)) : CallbackSpec w r w' r' ret := by
  simp only [pauseWhenCalled, hw, Bool.false_eq_true, if_false] at h
  split at h
  · cases h
    exact .rfl nofun nofun
  · cases h
    exact ⟨rfl, rfl, rfl, rfl, rfl, nofun, .inl rfl⟩

theorem invoke_spec (k : Kind) (d : List β) (hw : w.examStop = (false, w))
    (h : invoke k d w r = (w', r', ret)) : CallbackSpec w r w' r' ret := by
  unfold invoke at h
  split at h
  · cases h
    exact .rfl nofun nofun
  · exact resumedWriteToBw_spec _ _ d hw h
  · have := resumedWriteToBw_spec _ _ d hw h
    refine ⟨this.id, this.enableStop, this.stopCb, this.stopRequested, ?_, this.ret, this.ec⟩
    rw [this.state, Request.setOther_state]
  · exact pauseWhenCalled_spec _ d hw h

end Spec

end Jkl.Client
