import Jkl.Client.Request
import Jkl.Lib.Run
import Mathlib.Logic.Function.Basic

/-! The awaits of one request: `await_suspend`, the callbacks, the messages of curl and the
closures posted to the `io_context`, in any order. What is inside the critical section of
`await_suspend` is between `await` and `call`, what follows it up to the return is `suspend`. The
awaits are numbered; a closure carries, for the statements, the number of the await it was posted
for. -/
namespace Jkl.Client

variable {β : Type*}

/-- A closure of `try_mark_pause_and_schedule_resume`, which takes the lock, or of
`async_resume_coro`. -/
inductive Posted where
  | pause (await : ℕ)
  | resume (await : ℕ)
  deriving DecidableEq, Repr

def Posted.await : Posted → ℕ
  | .pause n | .resume n => n

/-- Where `await_suspend` is: nowhere, in its critical section, or between that and its end. The
state is the one that it has found. -/
inductive Phase where
  | out
  | locked (st : StateE)
  | unlocked (st : StateE)
  deriving DecidableEq, Repr

/-- `stopRequested` is of the promise of the awaiting coroutine. `continued` counts how often the
coroutine of an await has gone on, `returned` is what the awaits have returned. `misused` tells
that a resume found no awaiter, or found one whose `await_suspend` was still running. `late` tells
that a callback of the current awaiter was called after a stop request. -/
structure System (β : Type*) where
  req : Request
  aw : Option (Awaiter β)
  phase : Phase
  posted : List Posted
  awaits : ℕ
  stopRequested : Bool
  continued : ℕ → ℕ
  returned : List (ℕ × Option Ec)
  misused : Bool
  late : Bool

/-- What happens. `done` is a message of curl that the transfer is done, or a socket that could
not be assigned. -/
inductive Event (β : Type*) where
  | await (rt : ReadType) (two enableStop stop : Bool) (bw bw2 : BufWrapper β)
  | call (ec : Option Ec)
  | suspend
  | callback (k : Kind) (d : List β)
  | done (ec : Option Ec)
  | run (c : Posted)
  | requestStop
  | recycle

namespace System

def init : System β :=
  { req := .reset, aw := none, phase := .out, posted := [], awaits := 0, stopRequested := false
    continued := fun _ => 0, returned := [], misused := false, late := false }

/-- The coroutine of the awaiter goes on with `await_resume`. -/
def goOn (w : Awaiter β) (s : System β) : System β :=
  { s with
    aw := none
    continued := Function.update s.continued w.id (s.continued w.id + 1)
    returned := s.returned ++ [(w.id, w.ec)] }

/-- `await_suspend` up to the call of curl. -/
def await (rt : ReadType) (two enableStop stop : Bool) (bw bw2 : BufWrapper β) (s : System β) :
    System β :=
  let w : Awaiter β := {
    id := s.awaits, enableStop := enableStop, stopCb := false, stopRequested := false
    ec := none, bw := bw.clear, bw2 := bw2.clear }
  let s := { s with awaits := s.awaits + 1, stopRequested := stop, late := false }
  if enableStop && stop then s.goOn { w with ec := some .operationAborted }
  else
    { s with
      req := { s.req.init rt two with state := .running }
      aw := some w
      phase := .locked s.req.state }

/-- The end of `await_suspend`, which returns `false` when `_ec` is set. -/
def suspend (st : StateE) (w : Awaiter β) (s : System β) : System β :=
  if w.ec.isSome then
    goOn w
      { s with
        req := { s.req with state := st }
        posted := s.posted ++ [.resume w.id]
        phase := .out }
  else
    { s with
      aw := some {
        w with
        stopCb := w.enableStop
        stopRequested := w.enableStop && s.stopRequested }
      phase := .out }

def callback (k : Kind) (d : List β) (w : Awaiter β) (s : System β) : System β :=
  let (w', r, ret) := invoke k d w s.req
  { s with
    req := r
    aw := some w'
    posted := if ret = .pause then s.posted ++ [.pause w.id] else s.posted
    late := s.late || (w.enableStop && s.stopRequested && s.req.callback k != .skip) }

/-- `try_remove_and_schedule_resume`. -/
def tryRemove (ec : Option Ec) (w : Awaiter β) (s : System β) : System β :=
  { s with
    req := { s.req with state := .finished }
    aw := some { w with ec := w.ec.or ec }
    posted := s.posted ++ [.resume w.id] }

/-- `awaiter_coro().resume()`. -/
def resume (s : System β) : System β :=
  match s.aw with
  | none => { s with misused := true }
  | some w =>
    let s := s.goOn w
    { s with misused := s.misused || s.phase != .out }

/-- The `io_context` takes a closure to run it. -/
def take (c : Posted) (s : System β) : System β := { s with posted := s.posted.erase c }

/-- `on_recycle`. -/
def onRecycle (s : System β) : System β := { s with req := .reset }

def step (s : System β) : Event β → Option (System β)
  | .await rt two enableStop stop bw bw2 =>
    if s.phase ≠ .out || s.aw.isSome || s.req.state = .running then none
    else some (s.await rt two enableStop stop bw bw2)
  | .call ec =>
    match s.phase, s.aw with
    | .locked st, some w =>
      some { s with aw := some { w with ec := ec }, phase := .unlocked st }
    | _, _ => none
  | .suspend =>
    match s.phase, s.aw with
    | .unlocked st, some w => some (s.suspend st w)
    | _, _ => none
  | .callback k d =>
    match s.aw with
    | some w => if s.req.state = .running then some (s.callback k d w) else none
    | none => none
  | .done ec =>
    if s.req.state.isAdded then
      match s.aw with
      | some w => some (s.tryRemove ec w)
      | none => some { s with misused := true }
    else none
  | .run c =>
    if c ∈ s.posted then
      match c with
      | .pause n =>
        match s.phase with
        | .locked _ => none
        | _ => some { s.take c with posted := (s.take c).posted ++ [.resume n] }
      | .resume _ => some (s.take c).resume
    else none
  | .requestStop =>
    match s.aw with
    | some w =>
      some {
        s with
        stopRequested := true
        aw := some { w with stopRequested := w.stopRequested || w.stopCb } }
    | none => none
  | .recycle =>
    if s.phase ≠ .out || s.aw.isSome || s.req.state = .running then none
    else some s.onRecycle

/-- The await that has not gone on. -/
def current (s : System β) : Option ℕ := s.aw.map Awaiter.id

/-- Every await has gone on once, the current one not yet. All that is posted is one closure for
the current await, and it is posted as soon as the request does not run any more. -/
structure Once (s : System β) : Prop where
  continued : ∀ k < s.awaits, s.continued k = if s.current = some k then 0 else 1
  posted : ∀ c ∈ s.posted, s.current = some c.await
  single : s.posted.length ≤ 1
  due : s.aw ≠ none → s.req.state ≠ .running → s.posted ≠ []
  unmisused : s.misused = false

/-- `await_suspend` finds an error after the critical section, a paused request is done, or a
coroutine goes on while its `await_suspend` has not returned. -/
def Upset (s : System β) : Event β → Prop
  | .suspend => ∃ w, s.aw = some w ∧ w.ec ≠ none
  | .done _ => s.req.state = .paused
  | .run (.resume _) => s.phase ≠ .out
  | _ => False

end System

/-- `f` counts how often each of `m` awaits has gone on: all but the current one, once. -/
def Counts (f : ℕ → ℕ) (m : ℕ) (cur : Option ℕ) : Prop :=
  ∀ k, f k = if k < m ∧ cur ≠ some k then 1 else 0

section Counts

variable {f : ℕ → ℕ} {m : ℕ}

theorem Counts.begin (h : Counts f m none) : Counts f (m + 1) (some m) := by
  intro k
  rw [h k]
  congr 1
  simp only [ne_eq, Option.some.injEq, reduceCtorEq, not_false_eq_true, and_true, eq_iff_iff]
  omega

theorem Counts.goOn (h : Counts f (m + 1) (some m)) :
    Counts (Function.update f m (f m + 1)) (m + 1) none := by
  intro k
  by_cases hk : k = m
  · subst hk
    simp [h k]
  · simp [Function.update_of_ne hk, h k, Ne.symm hk]

end Counts

/-- What is posted for await `n` while its awaiter is there. -/
inductive Waits (n : ℕ) : StateE → List Posted → Prop where
  | running : Waits n .running []
  | paused {c : Posted} (h : c.await = n) : Waits n .paused [c]
  | finished {c : Posted} (h : c.await = n) : Waits n .finished [c]

theorem Waits.of_mem {n : ℕ} {st : StateE} {l : List Posted} {c : Posted} (h : Waits n st l)
    (hc : c ∈ l) : l = [c] ∧ c.await = n ∧ st ≠ .running := by
  cases h with
  | running => cases hc
  | paused h =>
    obtain rfl := List.mem_singleton.1 hc
    exact ⟨rfl, h, nofun⟩
  | finished h =>
    obtain rfl := List.mem_singleton.1 hc
    exact ⟨rfl, h, nofun⟩

namespace System

/-- What all steps keep that upset nothing. -/
structure Kept (s : System β) : Prop where
  idle : s.aw = none → s.posted = [] ∧ s.req.state ≠ .running ∧ s.phase = .out
  active : ∀ w, s.aw = some w → w.id + 1 = s.awaits ∧ Waits w.id s.req.state s.posted
  clean : ∀ w, s.aw = some w → w.enableStop = false →
    w.stopRequested = false ∧ w.stopCb = false
  counts : Counts s.continued s.awaits s.current
  unmisused : s.misused = false

/-- What a step can be. -/
inductive Stepped (s : System β) : Event β → System β → Prop where
  | await (rt : ReadType) (two es stop : Bool) (bw bw2 : BufWrapper β) (haw : s.aw = none) :
      Stepped s (.await rt two es stop bw bw2) (s.await rt two es stop bw bw2)
  | call (ec : Option Ec) (st : StateE) (w : Awaiter β) (hphase : s.phase = .locked st)
      (haw : s.aw = some w) :
      Stepped s (.call ec) { s with aw := some { w with ec := ec }, phase := .unlocked st }
  | suspend (st : StateE) (w : Awaiter β) (hphase : s.phase = .unlocked st)
      (haw : s.aw = some w) : Stepped s .suspend (s.suspend st w)
  | callback (k : Kind) (d : List β) (w : Awaiter β) (haw : s.aw = some w)
      (hrun : s.req.state = .running) : Stepped s (.callback k d) (s.callback k d w)
  | done (ec : Option Ec) (w : Awaiter β) (hadded : s.req.state.isAdded = true)
      (haw : s.aw = some w) : Stepped s (.done ec) (s.tryRemove ec w)
  | doneNone (ec : Option Ec) (hadded : s.req.state.isAdded = true) (haw : s.aw = none) :
      Stepped s (.done ec) { s with misused := true }
  | runPause (n : ℕ) (hc : .pause n ∈ s.posted) :
      Stepped s (.run (.pause n))
        { s.take (.pause n) with posted := (s.take (.pause n)).posted ++ [.resume n] }
  | runResume (n : ℕ) (hc : .resume n ∈ s.posted) :
      Stepped s (.run (.resume n)) (s.take (.resume n)).resume
  | requestStop (w : Awaiter β) (haw : s.aw = some w) :
      Stepped s .requestStop {
        s with
        stopRequested := true
        aw := some { w with stopRequested := w.stopRequested || w.stopCb } }
  | recycle (haw : s.aw = none) : Stepped s .recycle s.onRecycle

section Steps

variable {s t : System β} {w : Awaiter β} {k : Kind} {d : List β} {c : Posted} {n : ℕ}
  {st : StateE} {e : Event β} {ec : Option Ec}

theorem step_cases (h : step s e = some t) : Stepped s e t := by
  cases e with
  | await rt two es stop bw bw2 =>
    obtain ⟨hc, h⟩ : _ ∧ s.await rt two es stop bw bw2 = t := by simpa [step] using h
    subst h
    exact .await rt two es stop bw bw2 (by simp [hc])
  | call ec =>
    simp only [step] at h
    split at h
    next st w hphase haw =>
      cases h
      exact .call ec st w hphase haw
    next => cases h
  | suspend =>
    simp only [step] at h
    split at h
    next st w hphase haw =>
      cases h
      exact .suspend st w hphase haw
    next => cases h
  | callback k d =>
    simp only [step] at h
    split at h
    next w haw =>
      split at h
      next hrun =>
        cases h
        exact .callback k d w haw hrun
      next => cases h
    next => cases h
  | done ec =>
    simp only [step] at h
    split at h
    next hadded =>
      split at h
      next w haw =>
        cases h
        exact .done ec w hadded haw
      next haw =>
        cases h
        exact .doneNone ec hadded haw
    next => cases h
  | run c =>
    simp only [step] at h
    split at h
    next hc =>
      cases c with
      | pause n =>
        dsimp only at h
        split at h
        · cases h
        · cases h
          exact .runPause n hc
      | resume n =>
        cases h
        exact .runResume n hc
    next => cases h
  | requestStop =>
    simp only [step] at h
    split at h
    next w haw =>
      cases h
      exact .requestStop w haw
    next => cases h
  | recycle =>
    obtain ⟨hc, h⟩ : _ ∧ s.onRecycle = t := by simpa [step] using h
    subst h
    exact .recycle (by simp [hc])

theorem init_kept : (init : System β).Kept where
  idle _ := ⟨rfl, nofun, rfl⟩
  active _ h := nomatch h
  clean _ h := nomatch h
  counts k := by simp [init]
  unmisused := rfl

theorem Kept.once (hs : s.Kept) : s.Once where
  continued k hk := by
    rw [hs.counts k]
    simp [hk]
  posted c hc := by
    cases haw : s.aw with
    | none =>
      rw [(hs.idle haw).1] at hc
      cases hc
    | some w =>
      obtain ⟨-, hawait, -⟩ := (hs.active w haw).2.of_mem hc
      rw [current, haw, Option.map_some, hawait]
  single := by
    cases haw : s.aw with
    | none => simp [(hs.idle haw).1]
    | some w =>
      obtain ⟨-, hwaits⟩ := hs.active w haw
      generalize s.req.state = st, s.posted = l at hwaits
      cases hwaits <;> simp
  due haw hrun := by
    obtain ⟨w, haw⟩ := Option.ne_none_iff_exists'.1 haw
    obtain ⟨-, hwaits⟩ := hs.active w haw
    generalize s.req.state = st, s.posted = l at hwaits hrun
    cases hwaits with
    | running => exact absurd rfl hrun
    | paused _ => simp
    | finished _ => simp
  unmisused := hs.unmisused

/-- A coroutine goes on while nothing is left for it. -/
theorem Kept.goOn (hid : w.id + 1 = s.awaits) (hposted : s.posted = [])
    (hrun : s.req.state ≠ .running) (hphase : s.phase = .out)
    (hcounts : Counts s.continued s.awaits (some w.id)) (hmis : s.misused = false) :
    (s.goOn w).Kept where
  idle _ := ⟨hposted, hrun, hphase⟩
  active _ h := nomatch h
  clean _ h := nomatch h
  counts := by
    rw [← hid] at hcounts
    have := hcounts.goOn
    rw [hid] at this
    exact this
  unmisused := hmis

theorem Kept.await (hs : s.Kept) (haw : s.aw = none) (rt : ReadType) (two es stop : Bool)
    (bw bw2 : BufWrapper β) : (s.await rt two es stop bw bw2).Kept := by
  obtain ⟨hposted, hrun, hphase⟩ := hs.idle haw
  have hcounts := hs.counts
  rw [current, haw, Option.map_none] at hcounts
  unfold System.await
  dsimp only
  split
  · exact .goOn rfl hposted hrun hphase hcounts.begin hs.unmisused
  · refine ⟨nofun, fun w hw => ?_, fun w hw _ => ?_, hcounts.begin, hs.unmisused⟩
    · cases hw
      exact ⟨rfl, hposted ▸ .running⟩
    · cases hw
      exact ⟨rfl, rfl⟩

/-- A step that changes the awaiter, but not what it is known by. -/
theorem Kept.setAw {w' : Awaiter β} (hs : s.Kept) (haw : s.aw = some w) (haw' : t.aw = some w')
    (hid : w'.id = w.id)
    (hclean : w'.enableStop = false → w'.stopRequested = false ∧ w'.stopCb = false) (hreq : Waits w.id t.req.state t.posted)
    (hawaits : t.awaits = s.awaits) (hcont : t.continued = s.continued)
    (hmis : t.misused = s.misused) : t.Kept where
  idle h := by simp [haw'] at h
  active v hv := by
    obtain rfl := Option.some.inj (haw'.symm.trans hv)
    rw [hid, hawaits]
    exact ⟨(hs.active w haw).1, hreq⟩
  clean v hv := by
    obtain rfl := Option.some.inj (haw'.symm.trans hv)
    exact hclean
  counts := by
    have hcounts := hs.counts
    rw [current, haw] at hcounts
    rw [hcont, hawaits, current, haw', Option.map_some, hid]
    exact hcounts
  unmisused := hmis.trans hs.unmisused

theorem Kept.callback (hs : s.Kept) (haw : s.aw = some w) (hrun : s.req.state = .running) :
    (s.callback k d w).Kept := by
  have hclean := hs.clean w haw
  have hstop : w.examStop = (false, w) := Awaiter.examStop_eq fun he => (hclean he).1
  have hwaits := (hs.active w haw).2
  rcases hinv : invoke k d w s.req with ⟨w', r', ret⟩
  have hspec := invoke_spec k d hstop hinv
  have haw' : (s.callback k d w).aw = some w' := by simp only [System.callback, hinv]
  refine hs.setAw haw haw' hspec.id ?_ ?_ ?_ ?_ ?_
  · rw [hspec.enableStop, hspec.stopRequested, hspec.stopCb]
    exact hclean
  · simp only [System.callback, hinv, hspec.state]
    rw [hrun] at hwaits ⊢
    generalize s.posted = l at hwaits
    cases hwaits
    split
    · exact .paused rfl
    · exact .running
  · simp only [System.callback]
  · simp only [System.callback]
  · simp only [System.callback]

theorem Kept.tryRemove (hs : s.Kept) (haw : s.aw = some w) (hrun : s.req.state = .running)
    (ec : Option Ec) : (s.tryRemove ec w).Kept := by
  refine hs.setAw haw rfl rfl (hs.clean w haw) ?_ rfl rfl rfl
  have hwaits := (hs.active w haw).2
  simp only [System.tryRemove]
  rw [hrun] at hwaits
  generalize s.posted = l at hwaits
  cases hwaits
  exact .finished rfl

theorem Kept.suspend (hs : s.Kept) (haw : s.aw = some w) (hec : w.ec = none) :
    (s.suspend st w).Kept := by
  unfold System.suspend
  rw [hec, Option.isSome_none, if_neg Bool.false_ne_true]
  refine hs.setAw haw rfl rfl (fun he => ?_) (hs.active w haw).2 rfl rfl rfl
  dsimp only at he ⊢
  rw [he]
  exact ⟨Bool.false_and _, rfl⟩

theorem Kept.run (hs : s.Kept) (hc : c ∈ s.posted) (hphase : s.phase = .out) :
    (s.take c).resume.Kept := by
  obtain haw | ⟨w, haw⟩ := Option.eq_none_or_eq_some s.aw
  · rw [(hs.idle haw).1] at hc
    cases hc
  · obtain ⟨hid, hwaits⟩ := hs.active w haw
    obtain ⟨hp, -, hrun⟩ := hwaits.of_mem hc
    have hcounts := hs.counts
    rw [current, haw] at hcounts
    have hgo : ((s.take c).goOn w).Kept :=
      .goOn hid (by simp [take, hp]) hrun hphase hcounts hs.unmisused
    have heq : (s.take c).resume = (s.take c).goOn w := by
      simp [resume, System.goOn, take, haw, hphase, hs.unmisused]
    rw [heq]
    exact hgo

theorem Kept.runPause (hs : s.Kept) (hc : .pause n ∈ s.posted) :
    System.Kept
      { s.take (.pause n) with posted := (s.take (.pause n)).posted ++ [.resume n] } := by
  obtain haw | ⟨w, haw⟩ := Option.eq_none_or_eq_some s.aw
  · rw [(hs.idle haw).1] at hc
    cases hc
  · have hwaits := (hs.active w haw).2
    obtain ⟨hp, hawait, -⟩ := hwaits.of_mem hc
    refine hs.setAw haw haw rfl (hs.clean w haw) ?_ rfl rfl rfl
    simp only [take, hp, List.erase_cons_head, List.nil_append]
    rw [hp] at hwaits
    generalize s.req.state = st at hwaits
    cases hwaits with
    | paused _ => exact .paused hawait
    | finished _ => exact .finished hawait

theorem Kept.onRecycle (hs : s.Kept) (haw : s.aw = none) : s.onRecycle.Kept where
  idle _ := ⟨(hs.idle haw).1, nofun, (hs.idle haw).2.2⟩
  active _ h := by simp [System.onRecycle, haw] at h
  clean := hs.clean
  counts := hs.counts
  unmisused := hs.unmisused

/-- A message comes while the request runs, or while it is paused. -/
theorem isAdded_cases (h : st.isAdded = true) : st = .running ∨ st = .paused := by
  cases st <;> simp_all [StateE.isAdded]

theorem kept_step (hs : s.Kept) (h : step s e = some t) (hu : ¬ s.Upset e) : t.Kept := by
  cases step_cases h with
  | await rt two es stop bw bw2 haw => exact hs.await haw rt two es stop bw bw2
  | call ec st w hphase haw =>
    exact hs.setAw haw rfl rfl (hs.clean w haw) (hs.active w haw).2 rfl rfl rfl
  | suspend st w hphase haw =>
    refine hs.suspend haw ?_
    by_contra hec
    exact hu ⟨w, haw, hec⟩
  | callback k d w haw hrun => exact hs.callback haw hrun
  | done ec w hadded haw =>
    have hrun := (isAdded_cases hadded).resolve_right hu
    exact hs.tryRemove haw hrun ec
  | doneNone ec hadded haw =>
    have hrun := (isAdded_cases hadded).resolve_right hu
    exact absurd hrun (hs.idle haw).2.1
  | runPause n hc => exact hs.runPause hc
  | runResume n hc => exact hs.run hc (not_not.1 hu)
  | requestStop w haw =>
    refine hs.setAw haw rfl rfl (fun he => ?_) (hs.active w haw).2 rfl rfl rfl
    obtain ⟨hflag, hcb⟩ := hs.clean w haw he
    exact ⟨by simp [hflag, hcb], hcb⟩
  | recycle haw => exact hs.onRecycle haw

/-- Each upset leaves a closure too many, or a coroutine that goes on too early. -/
theorem not_once_upset (hs : s.Kept) (h : step s e = some t) (hu : s.Upset e) : ¬ t.Once := by
  intro ht
  cases step_cases h with
  | suspend st w hphase haw =>
    obtain ⟨v, hv, hec⟩ := hu
    obtain rfl := Option.some.inj (haw.symm.trans hv)
    have hsome : w.ec.isSome = true := Option.isSome_iff_ne_none.2 hec
    have hposted := ht.posted (.resume w.id)
    simp only [System.suspend, hsome, if_true, goOn, current] at hposted
    exact absurd (hposted (by simp)) nofun
  | done ec w hadded haw =>
    have hwaits := (hs.active w haw).2
    have hpaused : s.req.state = .paused := hu
    have hsingle := ht.single
    rw [hpaused] at hwaits
    simp only [System.tryRemove] at hsingle
    generalize s.posted = l at hwaits hsingle
    cases hwaits
    simp at hsingle
  | doneNone ec hadded haw => exact absurd ht.unmisused nofun
  | runResume n hc =>
    have hmis := ht.unmisused
    have hphase : s.phase ≠ .out := hu
    obtain haw | ⟨w, haw⟩ := Option.eq_none_or_eq_some s.aw
    · exact hphase (hs.idle haw).2.2
    · simp [resume, goOn, take, haw, hphase] at hmis
  | _ => exact hu

end Steps

/-- Every await goes on exactly once, with nothing left posted for it, as long as
`await_suspend` finds no error after its critical section, no paused request is done, and no
coroutine goes on before its `await_suspend` has returned; and no longer. -/
theorem each_once_iff (es : List (Event β)) :
    Steps.Each step (fun _ _ t => t.Once) init es ↔
      Steps.Each step (fun s e _ => ¬ s.Upset e) init es := by
  refine Steps.each_iff_each (I := Kept) ?_ ?_ init_kept
  · intro s e t hs h
    constructor
    · intro ht hu
      exact not_once_upset hs h hu ht
    · intro hu
      exact (kept_step hs h hu).once
  · intro s e t hs h hu
    exact kept_step hs h hu

/-- The handle cannot be added. -/
theorem not_each_once : ¬ Steps.Each step (fun _ _ t => t.Once) (init : System Unit)
    [.await .wd false false false ⟨true, false, 1, []⟩ ⟨true, false, 0, []⟩,
      .call (some (.curl 1)), .suspend] := by
  intro h
  obtain ⟨-, h⟩ := h _ rfl
  obtain ⟨-, h⟩ := h _ rfl
  obtain ⟨ht, -⟩ := h _ rfl
  exact absurd (ht.posted (.resume 0) (by decide)) nofun

end System

end Jkl.Client
