import Jkl.Lib.Run
import Mathlib.Data.List.Nodup
import Mathlib.Data.List.Perm.Basic
import Mathlib.Logic.Function.Basic

/-! The sockets that `curl_client` watches for curl: `multi_sock_cb`, `event_cb` and the
`async_wait`s they start. A call of `event_cb` is two steps, `handle` up to
`_multi.socket_action` and `finish` after it; the socket callbacks between the two are those
that curl makes from inside. -/
namespace Jkl.Client.Sockets

/-- The action of a single wait. -/
inductive Dir where
  | in
  | out
  deriving DecidableEq, Repr

/-- `CURL_POLL_NONE`, `CURL_POLL_IN`, `CURL_POLL_OUT` and `CURL_POLL_INOUT`. -/
inductive Poll where
  | none
  | in
  | out
  | inOut
  deriving DecidableEq, Repr

def Poll.has : Poll → Dir → Bool
  | .none, _ => false
  | .in, .in => true
  | .in, .out => false
  | .out, .in => false
  | .out, .out => true
  | .inOut, _ => true

/-- `socket_data`. -/
structure SocketData where
  acts : Poll
  id : ℕ
  deriving DecidableEq, Repr

/-- The error code of a completed wait. -/
inductive Completion where
  | ok
  | error
  | aborted
  deriving DecidableEq, Repr

/-- A wait whose handler has not been called, with what the handler captures. `result` is
there once the wait has completed. -/
structure Wait where
  id : ℕ
  cskt : ℕ
  dir : Dir
  result : Option Completion
  deriving DecidableEq, Repr

def Wait.key (w : Wait) : ℕ × Dir := (w.id, w.dir)

/-- `release` cancels the waits of the socket that have not completed. -/
def Wait.cancel (id : ℕ) (w : Wait) : Wait :=
  if w.id = id ∧ w.result = none then { w with result := some .aborted } else w

/-- A running `event_cb`; `ok` tells that it was called without an error. -/
structure Handler where
  id : ℕ
  cskt : ℕ
  dir : Dir
  ok : Bool
  deriving DecidableEq, Repr

/-- `sds` and `idSeq` are `_sds` and `_idSeq`; `failed` has the sockets with a wait that
completed with an error. -/
structure State where
  sds : ℕ → Option SocketData
  idSeq : ℕ
  waits : List Wait
  handler : Option Handler
  failed : List ℕ

inductive Event where
  | sockCb (cskt : ℕ) (acts : Poll) (assigned : Bool)
  | remove (cskt : ℕ)
  | complete (w : Wait) (error : Bool)
  | handle (w : Wait)
  | finish (stillRunning : Bool)

namespace State

def init : State :=
  { sds := fun _ => none, idSeq := 0, waits := [], handler := none, failed := [] }

def keys (s : State) : List (ℕ × Dir) := s.waits.map Wait.key

/-- The waits that `multi_sock_cb` starts. -/
def started (cskt : ℕ) (sd : SocketData) (acts : Poll) : List Wait :=
  ([.in, .out].filter fun dir => acts.has dir && !sd.acts.has dir).map fun dir =>
    { id := sd.id, cskt := cskt, dir := dir, result := none }

/-- `multi_sock_cb` for a socket that is in `_sds`. -/
def watch (cskt : ℕ) (sd : SocketData) (acts : Poll) (s : State) : State :=
  { s with
    sds := Function.update s.sds cskt (some { sd with acts := acts })
    waits := started cskt sd acts ++ s.waits }

def emplace (cskt : ℕ) (s : State) : State :=
  { s with
    sds := Function.update s.sds cskt (some { acts := .none, id := s.idSeq + 1 })
    idSeq := s.idSeq + 1 }

/-- `multi_sock_cb` with anything but `CURL_POLL_REMOVE`. A socket that cannot be assigned
fails the transfer. -/
def multiSockCb (cskt : ℕ) (acts : Poll) (assigned : Bool) (s : State) : State :=
  match s.sds cskt with
  | some sd => s.watch cskt sd acts
  | none =>
    if assigned then (s.emplace cskt).watch cskt { acts := .none, id := s.idSeq + 1 } acts else s

def erase (cskt : ℕ) (sd : SocketData) (s : State) : State :=
  { s with
    sds := Function.update s.sds cskt none
    waits := s.waits.map (Wait.cancel sd.id) }

def complete (w : Wait) (error : Bool) (s : State) : State :=
  { s with
    waits := { w with result := some (if error then .error else .ok) } :: s.waits.erase w
    failed := if error then w.id :: s.failed else s.failed }

/-- `event_cb` up to `socket_action`. -/
def handle (w : Wait) (ok : Bool) (s : State) : State :=
  { s with
    waits := s.waits.erase w
    handler := some { id := w.id, cskt := w.cskt, dir := w.dir, ok := ok } }

/-- The end of `event_cb` starts a wait again. -/
def Rearms (h : Handler) (stillRunning : Bool) (s : State) : Bool :=
  h.ok && stillRunning &&
    match s.sds h.cskt with
    | some sd => sd.id == h.id && sd.acts.has h.dir
    | none => false

def finish (h : Handler) (stillRunning : Bool) (s : State) : State :=
  let s := { s with handler := none }
  if s.Rearms h stillRunning then
    { s with waits := { id := h.id, cskt := h.cskt, dir := h.dir, result := none } :: s.waits }
  else s

end State

def step (s : State) : Event → Option State
  | .sockCb cskt acts assigned =>
    if acts = .none then none else some (s.multiSockCb cskt acts assigned)
  | .remove cskt =>
    match s.sds cskt with
    | some sd => some (s.erase cskt sd)
    | none => some s
  | .complete w error =>
    if w ∈ s.waits ∧ w.result = none then some (s.complete w error) else none
  | .handle w =>
    if w ∈ s.waits then
      match w.result with
      | none => none
      | some .aborted => some { s with waits := s.waits.erase w }
      | some .ok => if s.handler = none then some (s.handle w true) else none
      | some .error => if s.handler = none then some (s.handle w false) else none
    else none
  | .finish stillRunning =>
    match s.handler with
    | some h => some (s.finish h stillRunning)
    | none => none

/-- A socket of the map that has had no error. -/
def State.Live (s : State) (sd : SocketData) : Prop :=
  (∃ cskt, s.sds cskt = some sd) ∧ sd.id ∉ s.failed

/-- What a step leaves and what it does: at most one wait for each socket and direction, outside
of handlers exactly for the directions in `acts`; and a handler acts on its own socket only. -/
structure Watched (s : State) (e : Event) (t : State) : Prop where
  single : t.keys.Nodup
  exact : t.handler = none → ∀ sd, t.Live sd → ∀ dir, (sd.id, dir) ∈ t.keys ↔ sd.acts.has dir
  own : ∀ w, e = .handle w → w.result ≠ some .aborted →
    ∀ sd, s.sds w.cskt = some sd → sd.id = w.id
  rearmed : ∀ b h, e = .finish b → s.handler = some h →
    ∀ k ∈ t.keys, k ∈ s.keys ∨ k = (h.id, h.dir)

/-- Outside of handlers curl drops no direction of a socket, and it sets none whose wait is still
there; a completed wait is handled while its socket is still the one with that descriptor; and
when a handler ends, no direction has been dropped whose wait is still there, that of the handler
has not been set again, and if nothing is running it is not watched any more. -/
def Orderly (s : State) : Event → Prop
  | .sockCb cskt acts _ => ∀ sd, s.sds cskt = some sd → ∀ dir,
      (acts.has dir → sd.acts.has dir = false → (sd.id, dir) ∉ s.keys) ∧
        (s.handler = none → sd.id ∉ s.failed → sd.acts.has dir → acts.has dir)
  | .handle w => w.result ≠ some .aborted → ∀ sd, s.sds w.cskt = some sd → sd.id = w.id
  | .finish b => ∀ h, s.handler = some h →
      (s.Rearms h b → (h.id, h.dir) ∉ s.keys) ∧
        (∀ sd, s.Live sd → ∀ dir, (sd.id, dir) ∈ s.keys → sd.acts.has dir) ∧
        (b = false → ∀ sd, s.Live sd → sd.id = h.id → sd.acts.has h.dir →
          (h.id, h.dir) ∈ s.keys)
  | _ => True

/-- Number `id` has been given, and if it is still that of a socket, of the one at `cskt`. -/
def State.Knows (s : State) (id cskt : ℕ) : Prop :=
  id ≤ s.idSeq ∧ ∀ c sd, s.sds c = some sd → sd.id = id → c = cskt

/-- What all steps keep. -/
structure Known (s : State) : Prop where
  sds : ∀ c sd, s.sds c = some sd → s.Knows sd.id c
  waits : ∀ w ∈ s.waits, s.Knows w.id w.cskt
  handler : ∀ h, s.handler = some h → s.Knows h.id h.cskt
  failed : ∀ i ∈ s.failed, i ≤ s.idSeq
  error : ∀ w ∈ s.waits, w.result = some .error → w.id ∈ s.failed
  handlerError : ∀ h, s.handler = some h → h.ok = false → h.id ∈ s.failed
  aborted : ∀ w ∈ s.waits, w.result = some .aborted → ∀ c sd, s.sds c = some sd → sd.id ≠ w.id

/-- What orderly steps keep besides. During a handler only its own wait may be missing. -/
structure Kept (s : State) : Prop where
  known : Known s
  single : s.keys.Nodup
  exact : s.handler = none → ∀ sd, s.Live sd → ∀ dir, (sd.id, dir) ∈ s.keys ↔ sd.acts.has dir
  held : ∀ h, s.handler = some h → ∀ sd, s.Live sd → ∀ dir, sd.acts.has dir →
    (sd.id, dir) ∈ s.keys ∨ (sd.id, dir) = (h.id, h.dir)

section Steps

variable {s t : State} {cskt id c : ℕ} {sd : SocketData} {acts : Poll} {w : Wait} {dir : Dir}
  {h : Handler} {b : Bool} {e : Event}

theorem State.Knows.congr (hk : s.Knows id c) (hid : s.idSeq ≤ t.idSeq)
    (hsds : ∀ c sd, t.sds c = some sd → sd.id ≤ s.idSeq →
      ∃ sd', s.sds c = some sd' ∧ sd'.id = sd.id) : t.Knows id c := by
  refine ⟨Nat.le_trans hk.1 hid, fun c' sd hsd heq => ?_⟩
  obtain ⟨sd', hsd', hid'⟩ := hsds c' sd hsd (heq ▸ hk.1)
  exact hk.2 c' sd' hsd' (hid'.trans heq)

/-- A socket in the map after a change of the one at `cskt`. -/
theorem update_cases {f : ℕ → Option SocketData} {v : Option SocketData}
    (hsd : Function.update f cskt v c = some sd) :
    (c = cskt ∧ v = some sd) ∨ (c ≠ cskt ∧ f c = some sd) := by
  by_cases hc : c = cskt
  · subst hc
    rw [Function.update_self] at hsd
    exact .inl ⟨rfl, hsd⟩
  · rw [Function.update_of_ne hc] at hsd
    exact .inr ⟨hc, hsd⟩

theorem known_init : Known State.init where
  sds _ _ h := nomatch h
  waits _ h := nomatch h
  handler _ h := nomatch h
  failed _ h := nomatch h
  error _ h := nomatch h
  handlerError _ h := nomatch h
  aborted _ h := nomatch h

theorem Known.emplace (hs : Known s) (hnone : s.sds cskt = none) :
    Known (s.emplace cskt) := by
  have hup : ∀ {id c}, s.Knows id c → (s.emplace cskt).Knows id c := by
    intro id c hk
    refine hk.congr (Nat.le_succ _) fun c' sd hsd hle => ?_
    obtain ⟨rfl, hv⟩ | ⟨-, hf⟩ := update_cases hsd
    · cases hv
      exact absurd hle (Nat.not_succ_le_self _)
    · exact ⟨sd, hf, rfl⟩
  refine ⟨fun c sd hsd => ?_, fun w hw => hup (hs.waits w hw),
    fun h hh => hup (hs.handler h hh), fun i hi => Nat.le_succ_of_le (hs.failed i hi), hs.error,
    hs.handlerError, fun w hw hab c sd hsd => ?_⟩
  · obtain ⟨rfl, hv⟩ | ⟨-, hf⟩ := update_cases hsd
    · cases hv
      refine ⟨Nat.le_refl _, fun c' sd' hsd' heq => ?_⟩
      obtain ⟨rfl, -⟩ | ⟨-, hf⟩ := update_cases hsd'
      · rfl
      · have := (hs.sds c' sd' hf).1
        dsimp only at heq
        omega
    · exact hup (hs.sds c sd hf)
  · obtain ⟨rfl, hv⟩ | ⟨-, hf⟩ := update_cases hsd
    · cases hv
      have := (hs.waits w hw).1
      dsimp only
      omega
    · exact hs.aborted w hw hab c sd hf

theorem Known.watch (hs : Known s) (hsd : s.sds cskt = some sd) (acts : Poll) :
    Known (s.watch cskt sd acts) := by
  have hold : ∀ {c sd'}, (s.watch cskt sd acts).sds c = some sd' →
      ∃ sd'', s.sds c = some sd'' ∧ sd''.id = sd'.id := by
    intro c sd' hsd'
    obtain ⟨rfl, hv⟩ | ⟨-, hf⟩ := update_cases hsd'
    · cases hv
      exact ⟨sd, hsd, rfl⟩
    · exact ⟨sd', hf, rfl⟩
  have hup : ∀ {id c}, s.Knows id c → (s.watch cskt sd acts).Knows id c := fun hk =>
    hk.congr (Nat.le_refl _) fun c sd' hsd' _ => hold hsd'
  have hstarted : ∀ w ∈ State.started cskt sd acts,
      w.id = sd.id ∧ w.cskt = cskt ∧ w.result = none := by
    intro w hw
    obtain ⟨dir, -, rfl⟩ := List.mem_map.1 hw
    exact ⟨rfl, rfl, rfl⟩
  refine ⟨fun c sd' hsd' => ?_, fun w hw => ?_, fun h hh => hup (hs.handler h hh), hs.failed,
    fun w hw herr => ?_, hs.handlerError, fun w hw hab c sd' hsd' => ?_⟩
  · obtain ⟨sd'', hsd'', hid⟩ := hold hsd'
    exact hid ▸ hup (hs.sds c sd'' hsd'')
  · obtain hw | hw := List.mem_append.1 hw
    · obtain ⟨hid, hcskt, -⟩ := hstarted w hw
      rw [hid, hcskt]
      exact hup (hs.sds cskt sd hsd)
    · exact hup (hs.waits w hw)
  · obtain hw | hw := List.mem_append.1 hw
    · rw [(hstarted w hw).2.2] at herr
      cases herr
    · exact hs.error w hw herr
  · obtain hw | hw := List.mem_append.1 hw
    · rw [(hstarted w hw).2.2] at hab
      cases hab
    · obtain ⟨sd'', hsd'', hid⟩ := hold hsd'
      exact hid ▸ hs.aborted w hw hab c sd'' hsd''

/-- No two sockets of the map have one number. -/
theorem Known.inj (hs : Known s) {sd' : SocketData} {c' : ℕ} (hsd : s.sds c = some sd)
    (hsd' : s.sds c' = some sd') (heq : sd'.id = sd.id) : c' = c :=
  (hs.sds c sd hsd).2 c' sd' hsd' heq

@[simp] theorem Wait.cancel_key : (Wait.cancel id w).key = w.key := by
  unfold Wait.cancel
  split <;> rfl

@[simp] theorem Wait.cancel_id (i : ℕ) : (Wait.cancel i w).id = w.id := by
  unfold Wait.cancel
  split <;> rfl

@[simp] theorem Wait.cancel_cskt : (Wait.cancel id w).cskt = w.cskt := by
  unfold Wait.cancel
  split <;> rfl

theorem Known.erase (hs : Known s) (hsd : s.sds cskt = some sd) :
    Known (s.erase cskt sd) := by
  have hold : ∀ {c sd'}, (s.erase cskt sd).sds c = some sd' → c ≠ cskt ∧ s.sds c = some sd' := by
    intro c sd' hsd'
    obtain ⟨-, hv⟩ | hf := update_cases hsd'
    · cases hv
    · exact hf
  have hup : ∀ {id c}, s.Knows id c → (s.erase cskt sd).Knows id c := fun hk =>
    hk.congr (Nat.le_refl _) fun c sd' hsd' _ => ⟨sd', (hold hsd').2, rfl⟩
  refine ⟨fun c sd' hsd' => hup (hs.sds c sd' (hold hsd').2), fun w hw => ?_,
    fun h hh => hup (hs.handler h hh), hs.failed, fun w hw herr => ?_, hs.handlerError,
    fun w hw hab c sd' hsd' heq => ?_⟩
  · obtain ⟨v, hv, rfl⟩ := List.mem_map.1 hw
    simpa using hup (hs.waits v hv)
  · obtain ⟨v, hv, rfl⟩ := List.mem_map.1 hw
    rw [Wait.cancel_id]
    refine hs.error v hv ?_
    unfold Wait.cancel at herr
    split at herr
    · cases herr
    · exact herr
  · obtain ⟨v, hv, rfl⟩ := List.mem_map.1 hw
    obtain ⟨hne, hsd'⟩ := hold hsd'
    rw [Wait.cancel_id] at heq
    unfold Wait.cancel at hab
    split at hab
    next hc => exact hne (hs.inj hsd hsd' (heq.trans hc.1))
    next => exact hs.aborted v hv hab c sd' hsd' heq

theorem Known.complete (hs : Known s) (hw : w ∈ s.waits) (error : Bool) :
    Known (s.complete w error) := by
  have hfailed : ∀ i ∈ s.failed, i ∈ (s.complete w error).failed := by
    intro i hi
    unfold State.complete
    split
    · exact List.mem_cons_of_mem _ hi
    · exact hi
  refine ⟨hs.sds, fun v hv => ?_, hs.handler, fun i hi => ?_, fun v hv herr => ?_,
    fun h hh hok => hfailed _ (hs.handlerError h hh hok), fun v hv hab => ?_⟩
  · obtain rfl | hv := List.mem_cons.1 hv
    · exact hs.waits w hw
    · exact hs.waits v (List.mem_of_mem_erase hv)
  · simp only [State.complete] at hi
    split at hi
    · obtain rfl | hi := List.mem_cons.1 hi
      · exact (hs.waits w hw).1
      · exact hs.failed i hi
    · exact hs.failed i hi
  · obtain rfl | hv := List.mem_cons.1 hv
    · cases error with
      | true => exact List.mem_cons_self
      | false => cases herr
    · exact hfailed _ (hs.error v (List.mem_of_mem_erase hv) herr)
  · obtain rfl | hv := List.mem_cons.1 hv
    · cases error <;> cases hab
    · exact hs.aborted v (List.mem_of_mem_erase hv) hab

/-- The handler of a wait has been called. -/
theorem Known.called (hs : Known s) (w : Wait) :
    Known { s with waits := s.waits.erase w } where
  sds := hs.sds
  waits v hv := hs.waits v (List.mem_of_mem_erase hv)
  handler := hs.handler
  failed := hs.failed
  error v hv := hs.error v (List.mem_of_mem_erase hv)
  handlerError := hs.handlerError
  aborted v hv := hs.aborted v (List.mem_of_mem_erase hv)

theorem Known.handle (hs : Known s) (hw : w ∈ s.waits) {ok : Bool}
    (hok : ok = false → w.result = some .error) : Known (s.handle w ok) := by
  have hcall := hs.called w
  refine ⟨hcall.sds, hcall.waits, fun h hh => ?_, hcall.failed, hcall.error,
    fun h hh hbad => ?_, hcall.aborted⟩
  · cases hh
    exact hs.waits w hw
  · cases hh
    exact hs.error w hw (hok hbad)

theorem Known.finish (hs : Known s) (hh : s.handler = some h) (b : Bool) :
    Known (s.finish h b) := by
  have hnone : Known { s with handler := none } :=
    ⟨hs.sds, hs.waits, nofun, hs.failed, hs.error, nofun, hs.aborted⟩
  unfold State.finish
  dsimp only
  split
  · refine ⟨hnone.sds, fun w hw => ?_, nofun, hnone.failed, fun w hw herr => ?_, nofun,
      fun w hw hab => ?_⟩
    · obtain rfl | hw := List.mem_cons.1 hw
      · exact hs.handler h hh
      · exact hs.waits w hw
    · obtain rfl | hw := List.mem_cons.1 hw
      · cases herr
      · exact hs.error w hw herr
    · obtain rfl | hw := List.mem_cons.1 hw
      · cases hab
      · exact hs.aborted w hw hab
  · exact hnone

theorem mem_started_keys : (id, dir) ∈ (State.started cskt sd acts).map Wait.key ↔
    id = sd.id ∧ acts.has dir = true ∧ sd.acts.has dir = false := by
  simp only [State.started, List.map_map, List.mem_map, List.mem_filter, Function.comp_apply,
    Wait.key, Prod.mk.injEq]
  constructor
  · rintro ⟨dir', ⟨-, hhas⟩, rfl, rfl⟩
    simpa using hhas
  · rintro ⟨rfl, hhas, hnot⟩
    refine ⟨dir, ⟨?_, by simp [hhas, hnot]⟩, rfl, rfl⟩
    cases dir <;> simp

theorem started_nodup : ((State.started cskt sd acts).map Wait.key).Nodup := by
  simp only [State.started, List.map_map]
  refine List.Nodup.map (fun a b hab => ?_) (List.Nodup.filter _ (by decide))
  simpa [Wait.key] using hab

theorem watch_keys : (s.watch cskt sd acts).keys =
    (State.started cskt sd acts).map Wait.key ++ s.keys := by
  simp [State.keys, State.watch]

/-- The sockets of the map after `multi_sock_cb`. -/
theorem live_watch {sd' : SocketData} (hs : Known s) (hsd : s.sds cskt = some sd)
    (hl : (s.watch cskt sd acts).Live sd') :
    (sd' = { sd with acts := acts } ∧ s.Live sd) ∨ (s.Live sd' ∧ sd'.id ≠ sd.id) := by
  obtain ⟨⟨c, hc⟩, hok⟩ := hl
  obtain ⟨rfl, hv⟩ | ⟨hne, hf⟩ := update_cases hc
  · cases hv
    exact .inl ⟨rfl, ⟨c, hsd⟩, hok⟩
  · exact .inr ⟨⟨⟨c, hf⟩, hok⟩, fun heq => hne (hs.inj hsd hf heq)⟩

theorem Kept.watch (hs : Kept s) (hsd : s.sds cskt = some sd)
    (hnew : ∀ dir, acts.has dir → sd.acts.has dir = false → (sd.id, dir) ∉ s.keys)
    (hdrop : s.handler = none → sd.id ∉ s.failed → ∀ dir, sd.acts.has dir → acts.has dir) :
    Kept (s.watch cskt sd acts) := by
  refine ⟨hs.known.watch hsd acts, ?_, fun hh sd' hl dir => ?_, fun h hh sd' hl dir hhas => ?_⟩
  · rw [watch_keys]
    refine List.Nodup.append started_nodup hs.single ?_
    rintro ⟨i, dir⟩ hst hk
    obtain ⟨rfl, hhas, hnot⟩ := mem_started_keys.1 hst
    exact hnew dir hhas hnot hk
  · rw [watch_keys, List.mem_append, mem_started_keys]
    obtain ⟨rfl, hl'⟩ | ⟨hl', hne⟩ := live_watch hs.known hsd hl
    · have hex := hs.exact hh sd hl' dir
      have hkeep := hdrop hh hl'.2 dir
      dsimp only
      rw [hex]
      cases hold : sd.acts.has dir with
      | true => simp [hkeep hold]
      | false => simp
    · rw [hs.exact hh sd' hl' dir]
      simp [hne]
  · rw [watch_keys, List.mem_append, mem_started_keys]
    obtain ⟨rfl, hl'⟩ | ⟨hl', hne⟩ := live_watch hs.known hsd hl
    · dsimp only at hhas ⊢
      cases hold : sd.acts.has dir with
      | false => exact .inl (.inl ⟨rfl, hhas, rfl⟩)
      | true => exact (hs.held h hh sd hl' dir hold).imp_left .inr
    · exact (hs.held h hh sd' hl' dir hhas).imp_left .inr

theorem Known.fresh (hs : Known s) : (s.idSeq + 1, dir) ∉ s.keys := by
  intro hk
  obtain ⟨w, hw, hkey⟩ := List.mem_map.1 hk
  have hle := (hs.waits w hw).1
  have hid : w.id = s.idSeq + 1 := congrArg Prod.fst hkey
  omega

theorem Kept.emplace (hs : Kept s) (hnone : s.sds cskt = none) : Kept (s.emplace cskt) := by
  have hlive : ∀ {sd'}, (s.emplace cskt).Live sd' →
      sd' = { acts := .none, id := s.idSeq + 1 } ∨ s.Live sd' := by
    rintro sd' ⟨⟨c, hc⟩, hok⟩
    obtain ⟨rfl, hv⟩ | ⟨-, hf⟩ := update_cases hc
    · cases hv
      exact .inl rfl
    · exact .inr ⟨⟨c, hf⟩, hok⟩
  refine ⟨hs.known.emplace hnone, hs.single, fun hh sd' hl dir => ?_,
    fun h hh sd' hl dir hhas => ?_⟩
  · obtain rfl | hl := hlive hl
    · exact iff_of_false hs.known.fresh (by simp [Poll.has])
    · exact hs.exact hh sd' hl dir
  · obtain rfl | hl := hlive hl
    · simp [Poll.has] at hhas
    · exact hs.held h hh sd' hl dir hhas

theorem erase_keys : (s.erase cskt sd).keys = s.keys := by
  simp [State.keys, State.erase, Function.comp_def]

theorem Kept.erase (hs : Kept s) (hsd : s.sds cskt = some sd) : Kept (s.erase cskt sd) := by
  have hlive : ∀ {sd'}, (s.erase cskt sd).Live sd' → s.Live sd' := by
    rintro sd' ⟨⟨c, hc⟩, hok⟩
    obtain ⟨-, hv⟩ | ⟨-, hf⟩ := update_cases hc
    · cases hv
    · exact ⟨⟨c, hf⟩, hok⟩
  refine ⟨hs.known.erase hsd, ?_, fun hh sd' hl dir => ?_, fun h hh sd' hl dir hhas => ?_⟩
  · rw [erase_keys]
    exact hs.single
  · rw [erase_keys]
    exact hs.exact hh sd' (hlive hl) dir
  · rw [erase_keys]
    exact hs.held h hh sd' (hlive hl) dir hhas

theorem complete_keys (hw : w ∈ s.waits) (error : Bool) :
    (s.complete w error).keys.Perm s.keys :=
  ((List.perm_cons_erase hw).map Wait.key).symm

theorem Kept.complete (hs : Kept s) (hw : w ∈ s.waits) (error : Bool) :
    Kept (s.complete w error) := by
  have hperm := complete_keys hw error
  have hlive : ∀ {sd'}, (s.complete w error).Live sd' → s.Live sd' := by
    rintro sd' ⟨hc, hok⟩
    refine ⟨hc, fun hf => hok ?_⟩
    simp only [State.complete]
    split
    · exact List.mem_cons_of_mem _ hf
    · exact hf
  refine ⟨hs.known.complete hw error, hperm.nodup_iff.2 hs.single, fun hh sd' hl dir => ?_,
    fun h hh sd' hl dir hhas => ?_⟩
  · rw [hperm.mem_iff]
    exact hs.exact hh sd' (hlive hl) dir
  · rw [hperm.mem_iff]
    exact hs.held h hh sd' (hlive hl) dir hhas

/-- The waits after a handler has been called. -/
theorem called_keys (hn : s.keys.Nodup) (hw : w ∈ s.waits) {k : ℕ × Dir} :
    ((s.waits.erase w).map Wait.key).Nodup ∧
      (k ∈ (s.waits.erase w).map Wait.key ↔ k ∈ s.keys ∧ k ≠ w.key) := by
  have hperm : s.keys.Perm (w.key :: (s.waits.erase w).map Wait.key) :=
    (List.perm_cons_erase hw).map Wait.key
  obtain ⟨hnot, hnodup⟩ := List.nodup_cons.1 (hperm.nodup_iff.1 hn)
  refine ⟨hnodup, ?_⟩
  rw [hperm.mem_iff, List.mem_cons]
  constructor
  · intro hk
    exact ⟨.inr hk, fun heq => hnot (heq ▸ hk)⟩
  · rintro ⟨hk, hne⟩
    exact hk.resolve_left hne

theorem Kept.callAborted (hs : Kept s) (hw : w ∈ s.waits) (hab : w.result = some .aborted) :
    Kept { s with waits := s.waits.erase w } := by
  have hkeys : ∀ sd, s.Live sd → ∀ dir,
      (sd.id, dir) ∈ (s.waits.erase w).map Wait.key ↔ (sd.id, dir) ∈ s.keys := by
    rintro sd ⟨⟨c, hc⟩, -⟩ dir
    rw [(called_keys hs.single hw).2]
    refine and_iff_left fun heq => ?_
    exact hs.known.aborted w hw hab c sd hc (congrArg Prod.fst heq)
  refine ⟨hs.known.called w, (called_keys hs.single hw (k := w.key)).1, fun hh sd hl dir => ?_,
    fun h hh sd hl dir hhas => ?_⟩
  · exact (hkeys sd hl dir).trans (hs.exact hh sd hl dir)
  · exact (hs.held h hh sd hl dir hhas).imp_left (hkeys sd hl dir).2

theorem Kept.handle (hs : Kept s) (hw : w ∈ s.waits) (hidle : s.handler = none) {ok : Bool}
    (hok : ok = false → w.result = some .error) : Kept (s.handle w ok) := by
  refine ⟨hs.known.handle hw hok, (called_keys hs.single hw (k := w.key)).1, nofun,
    fun h hh sd hl dir hhas => ?_⟩
  cases hh
  by_cases hkey : (sd.id, dir) = w.key
  · exact .inr hkey
  · exact .inl ((called_keys hs.single hw).2.2 ⟨(hs.exact hidle sd hl dir).2 hhas, hkey⟩)

theorem finish_keys (s : State) (h : Handler) (b : Bool) :
    (s.finish h b).keys = if s.Rearms h b then (h.id, h.dir) :: s.keys else s.keys := by
  unfold State.finish
  dsimp only
  change State.keys (if s.Rearms h b = true then _ else _) = _
  split <;> rfl

theorem finish_live : (s.finish h b).Live sd ↔ s.Live sd := by
  unfold State.finish
  dsimp only
  split <;> exact Iff.rfl

theorem finish_handler : (s.finish h b).handler = none := by
  unfold State.finish
  dsimp only
  split <;> rfl

theorem rearms_iff (hs : Known s) (hh : s.handler = some h) (hl : s.Live sd)
    (hid : sd.id = h.id) : s.Rearms h b ↔ b = true ∧ sd.acts.has h.dir := by
  obtain ⟨⟨c, hc⟩, hok⟩ := hl
  obtain rfl : c = h.cskt := (hs.handler h hh).2 c sd hc hid
  have hok' : h.ok = true := by
    by_contra hbad
    exact hok (hid ▸ hs.handlerError h hh (by simpa using hbad))
  simp [State.Rearms, hc, hid, hok']

theorem Kept.finish (hs : Kept s) (hh : s.handler = some h)
    (hnew : s.Rearms h b → (h.id, h.dir) ∉ s.keys)
    (hdrop : ∀ sd, s.Live sd → ∀ dir, (sd.id, dir) ∈ s.keys → sd.acts.has dir)
    (hleft : b = false → ∀ sd, s.Live sd → sd.id = h.id → sd.acts.has h.dir →
      (h.id, h.dir) ∈ s.keys) : Kept (s.finish h b) := by
  refine ⟨hs.known.finish hh b, ?_, fun _ sd hl dir => ?_, fun h' hh' => ?_⟩
  · rw [finish_keys]
    split
    next hr => exact List.nodup_cons.2 ⟨hnew hr, hs.single⟩
    next => exact hs.single
  · have hl' := finish_live.1 hl
    have hheld := hs.held h hh sd hl' dir
    have hiff : sd.id = h.id → (s.Rearms h b ↔ b = true ∧ sd.acts.has h.dir) :=
      rearms_iff hs.known hh hl'
    rw [finish_keys]
    constructor
    · intro hk
      split at hk
      next hr =>
        obtain heq | hk := List.mem_cons.1 hk
        · obtain ⟨hid, rfl⟩ := Prod.mk.inj heq
          exact ((hiff hid).1 hr).2
        · exact hdrop sd hl' dir hk
      next => exact hdrop sd hl' dir hk
    · intro hhas
      obtain hk | heq := hheld hhas
      · split
        · exact List.mem_cons_of_mem _ hk
        · exact hk
      · obtain ⟨hid, rfl⟩ := Prod.mk.inj heq
        cases b with
        | true =>
          rw [if_pos ((hiff hid).2 ⟨rfl, hhas⟩), heq]
          exact List.mem_cons_self
        | false =>
          have hk := hleft rfl sd hl' hid hhas
          rw [← heq] at hk
          split
          · exact List.mem_cons_of_mem _ hk
          · exact hk
  · rw [finish_handler] at hh'
    cases hh'

theorem kept_init : Kept State.init :=
  ⟨known_init, List.nodup_nil, fun _ _ hl => (nomatch hl.1), nofun⟩

theorem kept_step (hs : Kept s) (h : step s e = some t) (ho : Orderly s e) : Kept t := by
  cases e with
  | sockCb cskt acts assigned =>
    obtain ⟨-, h⟩ : _ ∧ s.multiSockCb cskt acts assigned = t := by simpa [step] using h
    subst h
    unfold State.multiSockCb
    split
    next sd hsd =>
      exact hs.watch hsd (fun dir => (ho sd hsd dir).1)
        fun hh hok dir => (ho sd hsd dir).2 hh hok
    next hnone =>
      split
      · refine (hs.emplace hnone).watch (by simp [State.emplace]) (fun dir _ _ => ?_)
          fun _ _ dir hhas => absurd hhas (by simp [Poll.has])
        exact hs.known.fresh
      · exact hs
  | remove cskt =>
    simp only [step] at h
    split at h
    next hsd =>
      cases h
      exact hs.erase hsd
    next =>
      cases h
      exact hs
  | complete w error =>
    simp only [step] at h
    split at h
    next hw =>
      cases h
      exact hs.complete hw.1 error
    next => cases h
  | handle w =>
    simp only [step] at h
    split at h
    next hw =>
      split at h
      next => cases h
      next hab =>
        cases h
        exact hs.callAborted hw hab
      next =>
        split at h
        next hidle =>
          cases h
          exact hs.handle hw hidle nofun
        next => cases h
      next herr =>
        split at h
        next hidle =>
          cases h
          exact hs.handle hw hidle fun _ => herr
        next => cases h
    next => cases h
  | finish b =>
    simp only [step] at h
    split at h
    next hh =>
      cases h
      obtain ⟨hnew, hdrop, hleft⟩ := ho _ hh
      exact hs.finish hh hnew hdrop hleft
    next => cases h

theorem watched_of_orderly (hs : Kept s) (h : step s e = some t) (ho : Orderly s e) :
    Watched s e t := by
  have ht := kept_step hs h ho
  refine ⟨ht.single, ht.exact, fun w he => ?_, fun b hd he hh k hk => ?_⟩
  · subst he
    exact ho
  · subst he
    simp only [step, hh, Option.some.injEq] at h
    subst h
    rw [finish_keys] at hk
    split at hk
    · exact (List.mem_cons.1 hk).symm
    · exact .inl hk

theorem orderly_of_watched (hs : Kept s) (h : step s e = some t) (ht : Watched s e t) :
    Orderly s e := by
  cases e with
  | sockCb cskt acts assigned =>
    obtain ⟨-, h⟩ : _ ∧ s.multiSockCb cskt acts assigned = t := by simpa [step] using h
    intro sd hsd dir
    simp only [State.multiSockCb, hsd] at h
    subst h
    constructor
    · intro hhas hnot hk
      have hnodup := ht.single
      rw [watch_keys] at hnodup
      exact List.disjoint_of_nodup_append hnodup (mem_started_keys.2 ⟨rfl, hhas, hnot⟩) hk
    · intro hh hok hhas
      have hlive : (s.watch cskt sd acts).Live { sd with acts := acts } :=
        ⟨⟨cskt, by simp [State.watch]⟩, hok⟩
      refine (ht.exact hh _ hlive dir).1 ?_
      rw [watch_keys]
      exact List.mem_append_right _ ((hs.exact hh sd ⟨⟨cskt, hsd⟩, hok⟩ dir).2 hhas)
  | handle w => exact ht.own w rfl
  | finish b =>
    intro hd hh
    simp only [step, hh, Option.some.injEq] at h
    subst h
    have hexact := ht.exact finish_handler
    have hsub : ∀ k ∈ s.keys, k ∈ (s.finish hd b).keys := by
      intro k hk
      rw [finish_keys]
      split
      · exact List.mem_cons_of_mem _ hk
      · exact hk
    refine ⟨fun hr => ?_, fun sd hl dir hk => ?_, fun hb sd hl hid hhas => ?_⟩
    · have hnodup := ht.single
      rw [finish_keys, if_pos hr] at hnodup
      exact (List.nodup_cons.1 hnodup).1
    · exact (hexact sd (finish_live.2 hl) dir).1 (hsub _ hk)
    · have hk := (hexact sd (finish_live.2 hl) hd.dir).2 hhas
      rw [finish_keys, if_neg (by simp [State.Rearms, hb]), hid] at hk
      exact hk
  | _ => trivial

end Steps

/-- All steps of a run leave the sockets watched as `acts` says, with one wait for each
direction, and act on their own sockets, exactly when all its steps are orderly. -/
theorem each_watched_iff (es : List Event) :
    Steps.Each step Watched State.init es ↔
      Steps.Each step (fun s e _ => Orderly s e) State.init es :=
  Steps.each_iff_each
    (fun _ _ _ hs h => ⟨orderly_of_watched hs h, watched_of_orderly hs h⟩)
    (fun _ _ _ hs h ho => kept_step hs h ho) kept_init

/-- Curl wants to read, then to write, then to read again, and has two waits for reading. -/
theorem not_each_watched : ¬ Steps.Each step Watched State.init
    [.sockCb 5 .in true, .sockCb 5 .out true, .sockCb 5 .in true] := by
  intro h
  obtain ⟨-, h⟩ := h _ rfl
  obtain ⟨-, h⟩ := h _ rfl
  obtain ⟨ht, -⟩ := h _ rfl
  exact absurd ht.single (by decide)

end Jkl.Client.Sockets
