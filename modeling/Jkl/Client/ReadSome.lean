import Jkl.Client.Feed
import Jkl.Lib.Run

/-! The reads of one transfer. Curl delivers chunks to the header and the write callback; a
chunk whose callback pauses is delivered again, whole, when the next read unpauses the
transfer. All reads are of one read type. -/
namespace Jkl.Client

variable {β : Type*}

/-- The request with the awaiter of the current read; the chunk that curl keeps while the
transfer is paused; per buffer the bytes of the chunks that were taken and those that the reads
have returned. -/
structure Session (β : Type*) where
  req : Request
  aw : Option (Awaiter β)
  pending : Option (Kind × List β)
  taken : BwIx → List β
  returned : BwIx → List β
  finished : Bool
  failed : Bool

inductive ReadEvent (β : Type*) where
  | read (enableStop : Bool) (bw bw2 : BufWrapper β)
  | deliver (k : Kind) (d : List β)
  | redeliver
  | return
  | done

namespace Session

def init : Session β :=
  { req := .reset, aw := none, pending := none, taken := fun _ => [], returned := fun _ => []
    finished := false, failed := false }

/-- A read: `init()`, and the transfer is started or unpaused. -/
def read (rt : ReadType) (two : Bool) (enableStop : Bool) (bw bw2 : BufWrapper β)
    (s : Session β) : Session β :=
  { s with
    req := { s.req.init rt two with state := .running }
    aw := some {
      id := 0, enableStop := enableStop, stopCb := enableStop, stopRequested := false
      ec := none, bw := bw.clear, bw2 := bw2.clear } }

/-- One call of a callback with a chunk. -/
def feed (rt : ReadType) (two : Bool) (k : Kind) (d : List β) (w : Awaiter β) (s : Session β) :
    Session β :=
  let (w, r, ret) := invoke k d w s.req
  let s := { s with req := r, aw := some w }
  if ret = .pause then { s with pending := some (k, d) }
  else if ret.fails d.length then { s with failed := true }
  else
    { s with
      pending := none
      taken := fun ix => s.taken ix ++ if streamOf rt two k = some ix then d else [] }

/-- `await_resume`: the read returns what is in its buffers. -/
def finishRead (w : Awaiter β) (s : Session β) : Session β :=
  { s with aw := none, returned := fun ix => s.returned ix ++ (w.getBw ix).data }

def step (rt : ReadType) (two : Bool) (s : Session β) : ReadEvent β → Option (Session β)
  | .read enableStop bw bw2 =>
    if s.failed || s.finished || s.aw.isSome then none
    else some (s.read rt two enableStop bw bw2)
  | .deliver k d =>
    match s.aw, s.pending with
    | some w, none =>
      if s.failed || s.req.state ≠ .running then none else some (s.feed rt two k d w)
    | _, _ => none
  | .redeliver =>
    match s.aw, s.pending with
    | some w, some (k, d) =>
      if s.failed || s.req.state ≠ .running then none else some (s.feed rt two k d w)
    | _, _ => none
  | .return =>
    match s.aw with
    | some w => if s.failed || s.req.state ≠ .paused then none else some (s.finishRead w)
    | none => none
  | .done =>
    match s.aw, s.pending with
    | some w, none =>
      if s.failed || s.req.state ≠ .running then none
      else
        let s := s.finishRead w
        some { s with req := { s.req with state := .finished }, finished := true }
    | _, _ => none

/-- The bytes that curl has delivered, a chunk that is to be delivered again counted once. -/
def delivered (rt : ReadType) (two : Bool) (s : Session β) (ix : BwIx) : List β :=
  s.taken ix ++
    match s.pending with
    | some (k, d) => if streamOf rt two k = some ix then d else []
    | none => []

/-- The rest of a chunk that an earlier read has begun does not fit into the buffer. -/
def RewindsAt (rt : ReadType) (two : Bool) (ix : BwIx) (s : Session β) : ReadEvent β → Prop
  | .redeliver => ∃ w k d, s.aw = some w ∧ s.pending = some (k, d) ∧
      streamOf rt two k = some ix ∧ 0 < s.req.writeCbDataUsed ∧ (w.getBw ix).readSome = true ∧
      (w.getBw ix).cap - (w.getBw ix).data.length < d.length - s.req.writeCbDataUsed
  | _ => False

def Rewinds (rt : ReadType) (two : Bool) (s : Session β) (e : ReadEvent β) : Prop :=
  ∃ ix, s.RewindsAt rt two ix e

/-- The bytes that have gone into the buffers of the reads. -/
def got (s : Session β) (ix : BwIx) : List β :=
  s.returned ix ++
    match s.aw with
    | some w => (w.getBw ix).data
    | none => []

/-- The delivered bytes before the place that the request takes to be the next to read. -/
def passed (rt : ReadType) (two : Bool) (s : Session β) (ix : BwIx) : List β :=
  s.taken ix ++
    match s.pending with
    | some (k, d) => if streamOf rt two k = some ix then d.take s.req.writeCbDataUsed else []
    | none => []

/-- What holds of a session after any steps, of whatever bytes. -/
structure Inv (rt : ReadType) (two : Bool) (s : Session β) : Prop where
  serves : s.aw ≠ none → Serves rt two s.req
  clean : ∀ w, s.aw = some w → w.stopRequested = false
  idle : s.pending = none → s.req.writeCbDataUsed = 0
  begun : ∀ k d, s.pending = some (k, d) → s.req.writeCbDataUsed ≤ d.length ∧
    (streamOf rt two k = none → s.req.writeCbDataUsed = 0)
  fits : s.req.writeCbDataUsed ≠ 0 → PauseFits rt s.req.pauseType
  ended : s.finished = true → s.failed = false ∧ s.aw = none ∧ s.pending = none

/-- What a step can be. -/
inductive Stepped (rt : ReadType) (two : Bool) (s : Session β) :
    ReadEvent β → Session β → Prop where
  | read (es : Bool) (bw bw2 : BufWrapper β) (hfail : s.failed = false)
      (hfin : s.finished = false) (haw : s.aw = none) :
      Stepped rt two s (.read es bw bw2) (s.read rt two es bw bw2)
  | deliver (k : Kind) (d : List β) (w : Awaiter β) (hfail : s.failed = false)
      (haw : s.aw = some w) (hpend : s.pending = none) :
      Stepped rt two s (.deliver k d) (s.feed rt two k d w)
  | redeliver (k : Kind) (d : List β) (w : Awaiter β) (hfail : s.failed = false)
      (haw : s.aw = some w) (hpend : s.pending = some (k, d)) :
      Stepped rt two s .redeliver (s.feed rt two k d w)
  | return (w : Awaiter β) (hfail : s.failed = false) (haw : s.aw = some w) :
      Stepped rt two s .return (s.finishRead w)
  | done (w : Awaiter β) (hfail : s.failed = false) (haw : s.aw = some w)
      (hpend : s.pending = none) :
      Stepped rt two s .done
        { s.finishRead w with req := { s.req with state := .finished }, finished := true }

section Steps

variable {rt : ReadType} {two : Bool} {ix : BwIx} {k : Kind} {d : List β} {w : Awaiter β}
  {s t : Session β} {e : ReadEvent β}

theorem step_cases (h : step rt two s e = some t) : Stepped rt two s e t := by
  cases e with
  | read es bw bw2 =>
    obtain ⟨hc, h⟩ : _ ∧ s.read rt two es bw bw2 = t := by simpa [step] using h
    subst h
    exact .read es bw bw2 (by simp [hc]) (by simp [hc]) (by simp [hc])
  | deliver k d =>
    cases haw : s.aw with
    | none => simp [step, haw] at h
    | some w =>
      cases hpend : s.pending with
      | some p => simp [step, haw, hpend] at h
      | none =>
        obtain ⟨hc, h⟩ : _ ∧ s.feed rt two k d w = t := by simpa [step, haw, hpend] using h
        subst h
        exact .deliver k d w hc.1 haw hpend
  | redeliver =>
    cases haw : s.aw with
    | none => simp [step, haw] at h
    | some w =>
      cases hpend : s.pending with
      | none => simp [step, haw, hpend] at h
      | some p =>
        obtain ⟨hc, h⟩ : _ ∧ s.feed rt two p.1 p.2 w = t := by
          simpa [step, haw, hpend] using h
        subst h
        exact .redeliver p.1 p.2 w hc.1 haw hpend
  | «return» =>
    cases haw : s.aw with
    | none => simp [step, haw] at h
    | some w =>
      obtain ⟨hc, h⟩ : _ ∧ s.finishRead w = t := by simpa [step, haw] using h
      subst h
      exact .return w hc.1 haw
  | done =>
    cases haw : s.aw with
    | none => simp [step, haw] at h
    | some w =>
      cases hpend : s.pending with
      | some p => simp [step, haw, hpend] at h
      | none =>
        simp only [step, haw, hpend] at h
        split at h
        · cases h
        · next hc =>
          cases h
          exact .done w (by simp_all) haw hpend

theorem init_inv : (init : Session β).Inv rt two where
  serves h := absurd rfl h
  clean _ h := nomatch h
  idle _ := rfl
  begun _ _ h := nomatch h
  fits h := absurd rfl h
  ended h := nomatch h

theorem Inv.read (hI : s.Inv rt two) (es : Bool) (bw bw2 : BufWrapper β)
    (hfin : s.finished = false) : (s.read rt two es bw bw2).Inv rt two := by
  have hkeep := init_keeps two hI.fits
  refine ⟨fun _ => (init_serves rt two s.req).congr ⟨rfl, rfl⟩, fun w hw => ?_, fun hp => ?_,
    fun k d hp => ?_, fun hu => ?_, fun h => ?_⟩
  · cases hw
    rfl
  · exact hkeep.1.trans (hI.idle hp)
  · obtain ⟨hle, hzero⟩ := hI.begun k d hp
    exact ⟨hkeep.1 ▸ hle, fun hnone => hkeep.1.trans (hzero hnone)⟩
  · have hu' : s.req.writeCbDataUsed ≠ 0 := fun h0 => hu (hkeep.1.trans h0)
    change PauseFits rt (s.req.init rt two).pauseType
    rw [hkeep.2 hu']
    exact hI.fits hu'
  · exact absurd (hfin.symm.trans h) nofun

/-- The chunk of a call of a callback is the pending one, or a new one. -/
theorem Inv.used_le (hI : s.Inv rt two) (hp : s.pending = none ∨ s.pending = some (k, d)) :
    s.req.writeCbDataUsed ≤ d.length ∧
      (streamOf rt two k = none → s.req.writeCbDataUsed = 0) := by
  obtain hp | hp := hp
  · have hzero := hI.idle hp
    exact ⟨hzero ▸ Nat.zero_le _, fun _ => hzero⟩
  · exact hI.begun k d hp

/-- What a call of a callback makes of the session. -/
theorem Inv.feed_cases (hI : s.Inv rt two) (haw : s.aw = some w)
    (hp : s.pending = none ∨ s.pending = some (k, d)) :
    ∃ w' r' ret, Fed rt two k d w s.req w' r' ret ∧ w'.stopRequested = false ∧
      s.feed rt two k d w =
        if ret = .pause then { s with req := r', aw := some w', pending := some (k, d) }
        else if ret.fails d.length then { s with req := r', aw := some w', failed := true }
        else
          { s with
            req := r', aw := some w', pending := none
            taken := fun ix => s.taken ix ++ if streamOf rt two k = some ix then d else [] } := by
  have hclean := hI.clean w haw
  have hstop : w.examStop = (false, w) := Awaiter.examStop_eq fun _ => hclean
  obtain ⟨hle, hzero⟩ := hI.used_le hp
  rcases hinv : invoke k d w s.req with ⟨w', r', ret⟩
  have hser : Serves rt two s.req := hI.serves (by simp [haw])
  refine ⟨w', r', ret, invoke_fed hstop hser hle hzero hinv,
    (invoke_spec k d hstop hinv).stopRequested.trans hclean, ?_⟩
  simp only [feed, hinv]

theorem Inv.feed (hI : s.Inv rt two) (haw : s.aw = some w)
    (hp : s.pending = none ∨ s.pending = some (k, d)) : (s.feed rt two k d w).Inv rt two := by
  obtain ⟨w', r', ret, hfed, hclean, heq⟩ := hI.feed_cases haw hp
  obtain ⟨hle, hzero, hdone⟩ := hfed.used_le
  have hfin : s.finished ≠ true := fun h => absurd (hI.ended h).2.1 (by simp [haw])
  have hcl : ∀ v, some w' = some v → v.stopRequested = false := by
    intro v hv
    cases hv
    exact hclean
  rw [heq]
  split
  next hpause =>
    refine ⟨fun _ => hfed.serves, hcl, nofun, fun k' d' h => ?_, hfed.fits,
      fun h => absurd h hfin⟩
    cases h
    exact ⟨hle, hzero⟩
  next hpause =>
    have hu := hdone hpause
    split
    · refine ⟨fun _ => hfed.serves, hcl, fun _ => hu, fun k' d' h => ?_, hfed.fits,
        fun h => absurd h hfin⟩
      exact ⟨hu ▸ Nat.zero_le _, fun _ => hu⟩
    · exact ⟨fun _ => hfed.serves, hcl, fun _ => hu, nofun, hfed.fits, fun h => absurd h hfin⟩

theorem Inv.finishRead (hI : s.Inv rt two) (haw : s.aw = some w) :
    (s.finishRead w).Inv rt two where
  serves h := absurd rfl h
  clean _ h := nomatch h
  idle := hI.idle
  begun := hI.begun
  fits := hI.fits
  ended h := absurd (hI.ended h).2.1 (by simp [haw])

theorem Inv.step (hI : s.Inv rt two) (h : step rt two s e = some t) : t.Inv rt two := by
  cases step_cases h with
  | read es bw bw2 hfail hfin haw => exact hI.read es bw bw2 hfin
  | deliver k d w hfail haw hpend => exact hI.feed haw (.inl hpend)
  | redeliver k d w hfail haw hpend => exact hI.feed haw (.inr hpend)
  | «return» w hfail haw => exact hI.finishRead haw
  | done w hfail haw hpend =>
    exact ⟨fun h => absurd rfl h, nofun, hI.idle, hI.begun, hI.fits,
      fun _ => ⟨hfail, rfl, hpend⟩⟩

/-- The read goes on where the request takes it to go on: what the buffers get is what the
request passes over. -/
def Advances (rt : ReadType) (two : Bool) (s t : Session β) (ix : BwIx) : Prop :=
  ∃ x, t.got ix = s.got ix ++ x ∧ t.passed rt two ix = s.passed rt two ix ++ x

theorem passed_of_pending (hI : s.Inv rt two)
    (hp : s.pending = none ∨ s.pending = some (k, d)) :
    s.passed rt two ix = s.taken ix ++
      if streamOf rt two k = some ix then d.take s.req.writeCbDataUsed else [] := by
  obtain hp | hp := hp
  · simp [passed, hp, hI.idle hp]
  · simp [passed, hp]

theorem feed_advances (hI : s.Inv rt two) (haw : s.aw = some w)
    (hp : s.pending = none ∨ s.pending = some (k, d))
    (hfits : streamOf rt two k = some ix → s.req.writeCbDataUsed ≠ 0 →
      (w.getBw ix).readSome = true →
      d.length - s.req.writeCbDataUsed ≤ (w.getBw ix).cap - (w.getBw ix).data.length)
    (hok : (s.feed rt two k d w).failed = false) :
    Advances rt two s (s.feed rt two k d w) ix := by
  obtain ⟨w', r', ret, hfed, -, heq⟩ := hI.feed_cases haw hp
  rw [heq] at hok ⊢
  unfold Advances
  rw [passed_of_pending hI hp]
  by_cases hix : streamOf rt two k = some ix
  · have htook := hfed.took ix hix
    generalize hu : r'.writeCbDataUsed = used' at htook
    generalize hb : w'.getBw ix = b' at htook
    cases htook with
    | all hfit hdata =>
      refine ⟨d.drop s.req.writeCbDataUsed, ?_, ?_⟩
      · simp [got, haw, hb, hdata, Ret.fails]
      · simp [passed, hix, Ret.fails]
    | some hn hsome hroom hdata =>
      have hzero : s.req.writeCbDataUsed = 0 := by
        by_contra hne
        have := hfits hix hne hsome
        omega
      refine ⟨d.take used', ?_, ?_⟩
      · simp [got, haw, hb, hdata, hzero]
      · simp [passed, hix, hu, hzero]
    | none hsome hd =>
      have : (Ret.bytes 0).fails d.length = true := by
        simp only [Ret.fails, bne_iff_ne]
        omega
      simp [this] at hok
  · refine ⟨[], ?_, ?_⟩
    · have hframe := hfed.frame ix hix
      simp only [got, haw]
      split
      · simp [hframe]
      · split <;> simp [hframe]
    · by_cases hpause : ret = .pause
      · simp [passed, hix, hpause]
      · cases hf : ret.fails d.length with
        | true => simp [hpause, hf] at hok
        | false => simp [passed, hix, hpause]

/-- A call with a chunk that has been begun and whose rest does not fit: the buffer gets more of
it, and the request takes what was begun before to be unread. -/
theorem feed_rewinds (hI : s.Inv rt two) (haw : s.aw = some w) (hp : s.pending = some (k, d))
    (hix : streamOf rt two k = some ix) (hsome : (w.getBw ix).readSome = true)
    (hroom : (w.getBw ix).cap - (w.getBw ix).data.length < d.length - s.req.writeCbDataUsed) :
    ∃ n, ((s.feed rt two k d w).got ix).length = (s.got ix).length + n ∧
      ((s.feed rt two k d w).passed rt two ix).length + s.req.writeCbDataUsed =
        (s.passed rt two ix).length + n := by
  obtain ⟨w', r', ret, hfed, -, heq⟩ := hI.feed_cases haw (.inr hp)
  rw [heq, passed_of_pending hI (.inr hp)]
  have htook := hfed.took ix hix
  generalize hu : r'.writeCbDataUsed = used' at htook
  generalize hb : w'.getBw ix = b' at htook
  cases htook with
  | all hfit hdata =>
    have := hfit hsome
    omega
  | some hn _ _ hdata =>
    refine ⟨used', ?_, ?_⟩
    · have hmin : min used' (d.length - s.req.writeCbDataUsed) = used' := by omega
      simp [got, haw, hb, hdata, hmin]
      omega
    · have hle := (hI.begun k d hp).1
      simp [passed, hix, hu]
      omega
  | none hno _ => exact absurd (hsome.symm.trans hno) nofun

theorem feed_failed (hI : s.Inv rt two) (haw : s.aw = some w)
    (hp : s.pending = none ∨ s.pending = some (k, d)) (hfail : s.failed = false)
    (h : (s.feed rt two k d w).failed = true) :
    (s.feed rt two k d w).returned = s.returned ∧
      (s.feed rt two k d w).delivered rt two = s.delivered rt two := by
  obtain ⟨w', r', ret, -, -, heq⟩ := hI.feed_cases haw hp
  rw [heq] at h ⊢
  split at h
  · exact absurd (hfail.symm.trans h) nofun
  next hpause =>
    rw [if_neg hpause]
    split at h
    next hf =>
      rw [if_pos hf]
      exact ⟨rfl, rfl⟩
    next hf => exact absurd (hfail.symm.trans h) nofun

theorem read_advances (hI : s.Inv rt two) (es : Bool) (bw bw2 : BufWrapper β)
    (haw : s.aw = none) : Advances rt two s (s.read rt two es bw bw2) ix := by
  have hkeep := (init_keeps two hI.fits).1
  refine ⟨[], ?_, ?_⟩
  · cases ix <;> simp [got, haw, read, Awaiter.getBw, BufWrapper.clear]
  · simp [passed, read, hkeep]

theorem finishRead_got (haw : s.aw = some w) : (s.finishRead w).got ix = s.got ix := by
  simp [got, haw, finishRead]

theorem step_advances (hI : s.Inv rt two) (h : step rt two s e = some t)
    (hok : t.failed = false) (hr : ¬ s.RewindsAt rt two ix e) : Advances rt two s t ix := by
  cases step_cases h with
  | read es bw bw2 hfail hfin haw => exact read_advances hI es bw bw2 haw
  | deliver k d w hfail haw hpend =>
    exact feed_advances hI haw (.inl hpend)
      (fun _ hne => absurd (hI.idle hpend) hne) hok
  | redeliver k d w hfail haw hpend =>
    refine feed_advances hI haw (.inr hpend) (fun hix hne hsome => ?_) hok
    by_contra hlt
    exact hr ⟨w, k, d, haw, hpend, hix, Nat.pos_of_ne_zero hne, hsome, Nat.lt_of_not_le hlt⟩
  | «return» w hfail haw => exact ⟨[], by simp [finishRead_got haw], by simp [passed, finishRead]⟩
  | done w hfail haw hpend =>
    exact ⟨[], by simpa [got] using finishRead_got haw, by simp [passed, finishRead]⟩

theorem step_rewinds (hI : s.Inv rt two) (h : step rt two s e = some t)
    (hr : s.RewindsAt rt two ix e) :
    ∃ n u, 0 < u ∧ (t.got ix).length = (s.got ix).length + n ∧
      (t.passed rt two ix).length + u = (s.passed rt two ix).length + n := by
  cases step_cases h with
  | redeliver k d w hfail haw hpend =>
    obtain ⟨w', k', d', haw', hpend', hix, hpos, hsome, hroom⟩ := hr
    obtain rfl : w = w' := Option.some.inj (haw.symm.trans haw')
    obtain ⟨rfl, rfl⟩ : k = k' ∧ d = d' := by
      simpa using Option.some.inj (hpend.symm.trans hpend')
    obtain ⟨n, hgot, hpassed⟩ := feed_rewinds hI haw hpend hix hsome hroom
    exact ⟨n, _, hpos, hgot, hpassed⟩
  | _ => exact absurd hr nofun

theorem step_failed (hI : s.Inv rt two) (h : step rt two s e = some t)
    (hbad : t.failed = true) :
    t.returned = s.returned ∧ t.delivered rt two = s.delivered rt two := by
  cases step_cases h with
  | deliver k d w hfail haw hpend => exact feed_failed hI haw (.inl hpend) hfail hbad
  | redeliver k d w hfail haw hpend => exact feed_failed hI haw (.inr hpend) hfail hbad
  | read _ _ _ hfail => exact absurd (hfail.symm.trans hbad) nofun
  | «return» _ hfail => exact absurd (hfail.symm.trans hbad) nofun
  | done _ hfail => exact absurd (hfail.symm.trans hbad) nofun

theorem step_not_failed (h : step rt two s e = some t) : s.failed = false := by
  cases step_cases h <;> assumption

theorem passed_prefix : s.passed rt two ix <+: s.delivered rt two ix := by
  refine List.prefix_append_right_inj _ |>.2 ?_
  split
  · split
    · exact List.take_prefix _ _
    · exact List.prefix_refl _
  · exact List.prefix_refl _

/-- The buffers have got what the request has passed over, so the reads have returned a
prefix. -/
structure Exact (rt : ReadType) (two : Bool) (s : Session β) : Prop where
  whole : s.failed = false → ∀ ix, s.got ix = s.passed rt two ix
  part : ∀ ix, s.returned ix <+: s.delivered rt two ix

theorem Exact.of_whole (h : ∀ ix, s.got ix = s.passed rt two ix) : s.Exact rt two := by
  refine ⟨fun _ => h, fun ix => ?_⟩
  have hgot : s.returned ix <+: s.got ix := List.prefix_append _ _
  rw [h ix] at hgot
  exact hgot.trans passed_prefix

theorem Exact.step (hI : s.Inv rt two) (hE : s.Exact rt two) (hr : ¬ s.Rewinds rt two e)
    (h : Session.step rt two s e = some t) : t.Exact rt two := by
  cases hbad : t.failed with
  | true =>
    obtain ⟨hret, hdel⟩ := step_failed hI h hbad
    refine ⟨fun hok => absurd (hbad.symm.trans hok) nofun, fun ix => ?_⟩
    rw [hret, hdel]
    exact hE.part ix
  | false =>
    refine .of_whole fun ix => ?_
    obtain ⟨x, hgot, hpassed⟩ := step_advances hI h hbad fun hat => hr ⟨ix, hat⟩
    rw [hgot, hpassed, hE.whole (step_not_failed h) ix]

/-- The buffers have got at least as much as the request has passed over. -/
def Ahead (rt : ReadType) (two : Bool) (s : Session β) : Prop :=
  s.failed = true ∨ ∀ ix, (s.passed rt two ix).length ≤ (s.got ix).length

/-- A buffer has got more than that. -/
def Excess (rt : ReadType) (two : Bool) (s : Session β) : Prop :=
  s.failed = true ∨ ∃ ix, (s.passed rt two ix).length < (s.got ix).length

/-- How far ahead the buffers are never gets less, and more where the request rewinds. -/
theorem step_ahead (hI : s.Inv rt two) (h : step rt two s e = some t)
    (hok : t.failed = false) (ix : BwIx) :
    (s.got ix).length + (t.passed rt two ix).length ≤
        (t.got ix).length + (s.passed rt two ix).length ∧
      (s.RewindsAt rt two ix e →
        (s.got ix).length + (t.passed rt two ix).length <
          (t.got ix).length + (s.passed rt two ix).length) := by
  by_cases hr : s.RewindsAt rt two ix e
  · obtain ⟨n, u, hpos, hgot, hpassed⟩ := step_rewinds hI h hr
    exact ⟨by omega, fun _ => by omega⟩
  · obtain ⟨x, hgot, hpassed⟩ := step_advances hI h hok hr
    rw [hgot, hpassed, List.length_append, List.length_append]
    exact ⟨by omega, fun hat => absurd hat hr⟩

theorem Ahead.step (hI : s.Inv rt two) (hA : s.Ahead rt two)
    (h : Session.step rt two s e = some t) : t.Ahead rt two := by
  cases hbad : t.failed with
  | true => exact .inl hbad
  | false =>
    refine .inr fun ix => ?_
    have hle := (hA.resolve_left (by simp [step_not_failed h])) ix
    have := (step_ahead hI h hbad ix).1
    omega

theorem excess_of_rewinds (hI : s.Inv rt two) (hA : s.Ahead rt two)
    (h : Session.step rt two s e = some t) (hr : s.Rewinds rt two e) : t.Excess rt two := by
  cases hbad : t.failed with
  | true => exact .inl hbad
  | false =>
    obtain ⟨ix, hat⟩ := hr
    have hle := (hA.resolve_left (by simp [step_not_failed h])) ix
    have := (step_ahead hI h hbad ix).2 hat
    exact .inr ⟨ix, by omega⟩

theorem Excess.step (hI : s.Inv rt two) (hX : s.Excess rt two)
    (h : Session.step rt two s e = some t) : t.Excess rt two := by
  cases hbad : t.failed with
  | true => exact .inl hbad
  | false =>
    obtain ⟨ix, hlt⟩ := hX.resolve_left (by simp [step_not_failed h])
    have := (step_ahead hI h hbad ix).1
    exact .inr ⟨ix, by omega⟩

theorem init_exact : (init : Session β).Exact rt two := .of_whole fun _ => rfl

theorem init_ahead : (init : Session β).Ahead rt two := .inr fun _ => Nat.le_refl _

theorem delivered_of_finished (hI : s.Inv rt two) (hf : s.finished = true) :
    s.failed = false ∧ s.got = s.returned ∧ s.passed rt two = s.delivered rt two := by
  obtain ⟨hfail, haw, hpend⟩ := hI.ended hf
  refine ⟨hfail, ?_, ?_⟩
  · funext ix
    simp [got, haw]
  · funext ix
    simp [passed, delivered, hpend]

end Steps

/-- While no read rewinds, the reads return a prefix of what curl has delivered, and all of it
once the request has finished; and a request that finishes with all of it has not rewound. -/
theorem read_some_iff (rt : ReadType) (two : Bool) (es : List (ReadEvent β)) (t : Session β)
    (h : Steps.run (step rt two) init es = some t) :
    (Steps.Along (step rt two) (fun s e => ¬ s.Rewinds rt two e) init es →
      (∀ ix, t.returned ix <+: t.delivered rt two ix) ∧
        (t.finished = true → t.returned = t.delivered rt two)) ∧
    (t.finished = true → (t.returned = t.delivered rt two ↔
      Steps.Along (step rt two) (fun s e => ¬ s.Rewinds rt two e) init es)) := by
  have hI : t.Inv rt two := Steps.invariant_of_step (fun _ _ _ hI ht => hI.step ht) init_inv h
  have hexact : Steps.Along (step rt two) (fun s e => ¬ s.Rewinds rt two e) init es →
      t.Exact rt two := fun ha =>
    (Steps.invariant_run (I := fun s => s.Inv rt two ∧ s.Exact rt two)
      (fun _ _ _ hs hr ht => ⟨hs.1.step ht, hs.2.step hs.1 hr ht⟩)
      ⟨init_inv, init_exact⟩ ha h).2
  have hall : Steps.Along (step rt two) (fun s e => ¬ s.Rewinds rt two e) init es →
      t.finished = true → t.returned = t.delivered rt two := by
    intro ha hf
    obtain ⟨hfail, hgot, hpassed⟩ := delivered_of_finished hI hf
    rw [← hgot, ← hpassed]
    exact funext ((hexact ha).whole hfail)
  refine ⟨fun ha => ⟨(hexact ha).part, hall ha⟩, fun hf => ⟨fun heq => ?_, fun ha => hall ha hf⟩⟩
  obtain ⟨hfail, hgot, hpassed⟩ := delivered_of_finished hI hf
  refine Steps.along_of_not (I := fun s => s.Inv rt two ∧ s.Ahead rt two)
    (D := fun s => s.Excess rt two) (fun _ _ _ hs ht => ⟨hs.1.step ht, hs.2.step hs.1 ht⟩)
    (fun _ _ _ hs ht hr => excess_of_rewinds hs.1 hs.2 ht (not_not.1 hr))
    (fun _ _ _ hs hX ht => hX.step hs.1 ht) ⟨init_inv, init_ahead⟩ h fun hX => ?_
  obtain ⟨ix, hlt⟩ := hX.resolve_left (by simp [hfail])
  rw [hgot, hpassed, heq] at hlt
  exact absurd hlt (Nat.lt_irrefl _)

/-- A buffer of `cap` bytes for a read of some bytes. -/
def someBuf (cap : ℕ) : BufWrapper ℕ :=
  { readSome := true, resizable := false, cap := cap, data := [] }

theorem read_some_two :
    ∃ t : Session ℕ, Steps.run (step .wd false) init
        [.read false (someBuf 2) (someBuf 0), .deliver .wd [1, 2, 3], .return,
          .read false (someBuf 2) (someBuf 0), .redeliver, .done] = some t ∧
      t.returned .one = [1, 2, 3] ∧
      (t.returned = t.delivered .wd false ↔
        Steps.Along (step .wd false) (fun s e => ¬ s.Rewinds .wd false e) init
          [.read false (someBuf 2) (someBuf 0), .deliver .wd [1, 2, 3], .return,
            .read false (someBuf 2) (someBuf 0), .redeliver, .done]) :=
  ⟨_, rfl, rfl, (read_some_iff .wd false _ _ rfl).2 rfl⟩

/-- Three bytes for three reads of a byte each. -/
theorem not_read_some :
    ∃ t : Session ℕ, Steps.run (step .wd false) init
        [.read false (someBuf 1) (someBuf 0), .deliver .wd [1, 2, 3], .return,
          .read false (someBuf 1) (someBuf 0), .redeliver, .return,
          .read false (someBuf 1) (someBuf 0), .redeliver, .return] = some t ∧
      t.returned .one = [1, 2, 2] ∧ t.delivered .wd false .one = [1, 2, 3] ∧
      ¬ t.returned .one <+: t.delivered .wd false .one :=
  ⟨_, rfl, rfl, rfl, by decide⟩

end Session

end Jkl.Client
