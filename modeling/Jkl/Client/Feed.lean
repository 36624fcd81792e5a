import Jkl.Client.Request

/-! The bytes of the callbacks of one read type `rt`, with a second buffer or without (`two`):
what a call with a chunk puts into the buffer of its stream, and how much of the chunk the
request takes to be read after it. -/
namespace Jkl.Client

variable {β : Type*}

/-- The buffer that gets the bytes of a callback, if the read type asks for them. -/
def streamOf (rt : ReadType) (two : Bool) : Kind → Option BwIx
  | .hd =>
    match rt with
    | .hdWd | .hd | .hdUntilWd => some .one
    | .wd | .wdUntilHd => none
  | .wd =>
    match rt with
    | .hdWd => if two then some .two else some .one
    | .wd | .wdUntilHd => some .one
    | .hd | .hdUntilWd => none

/-- The bytes of a call with `d`, of which `used` have been read before: the buffer gets the
rest of them, or the first `n` bytes of the rest, and the call pauses. -/
inductive Took (d : List β) (used : ℕ) (b : BufWrapper β) : BufWrapper β → ℕ → Ret → Prop where
  | all {b' : BufWrapper β}
      (hfit : b.readSome = true → d.length - used ≤ b.cap - b.data.length)
      (hdata : b'.data = b.data ++ d.drop used) : Took d used b b' 0 (.bytes d.length)
  | some {b' : BufWrapper β} {n : ℕ} (hn : n < d.length - used)
      (hsome : b.readSome = true) (hroom : n = b.cap - b.data.length)
      (hdata : b'.data = b.data ++ (d.drop used).take n) : Took d used b b' n .pause
  | none (hsome : b.readSome = false) (hd : 0 < d.length) : Took d used b b 0 (.bytes 0)

def Kind.other : Kind → Kind
  | .hd => .wd
  | .wd => .hd

def Kind.pauseType : Kind → PauseType
  | .hd => .hd
  | .wd => .wd

/-- The callbacks are those of the read type: a stream that is read goes to its buffer. -/
structure Serves (rt : ReadType) (two : Bool) (r : Request) : Prop where
  read : ∀ k ix, streamOf rt two k = some ix →
    r.callback k = .resumedWrite ix k.pauseType ∨
      (r.callback k = .untilOther k.pauseType ∧ ix = .one ∧ streamOf rt two k.other = none)
  unread : ∀ k, streamOf rt two k = none →
    r.callback k = .skip ∨ ∃ pt, r.callback k = .pauseWhenCalled pt

/-- Reads of the headers or of the body only know pauses of their own. -/
def PauseFits (rt : ReadType) (pt : PauseType) : Prop :=
  (rt = .hd → pt = .hd) ∧ (rt = .wd → pt = .wd)

section Bytes

variable {rt : ReadType} {two : Bool} {ix : BwIx} {pt : PauseType} {k : Kind} {d : List β}
  {w w' : Awaiter β} {r r' : Request} {ret : Ret}

@[simp] theorem Awaiter.getBw_setBw (ix jx : BwIx) (b : BufWrapper β) :
    (w.setBw ix b).getBw jx = if jx = ix then b else w.getBw jx := by
  cases ix <;> cases jx <;> rfl

theorem resumedWriteToBw_took (hw : w.examStop = (false, w))
    (hused : r.writeCbDataUsed ≤ d.length)
    (h : resumedWriteToBw ix pt d w r = (w', r', ret)) :
    Took d r.writeCbDataUsed (w.getBw ix) (w'.getBw ix) r'.writeCbDataUsed ret ∧
      (∀ jx ≠ ix, w'.getBw jx = w.getBw jx) ∧
      (r'.writeCbDataUsed ≠ 0 → r'.pauseType = pt) := by
  cases resumedWriteToBw_cases hw h with
  | empty hd =>
    have hzero : r.writeCbDataUsed = 0 := by omega
    have hall : Took d 0 (w.getBw ix) (w.getBw ix) 0 (.bytes d.length) :=
      .all (fun _ => by omega) (by simp [List.eq_nil_of_length_eq_zero hd])
    rw [hd] at hall
    refine ⟨?_, fun _ _ => rfl, fun hne => absurd hzero hne⟩
    rw [hzero]
    exact hall
  | beyond hd hlt => omega
  | paused b n hsome happ hn =>
    obtain ⟨hb, hmin⟩ := Prod.mk.inj happ
    rw [List.length_drop] at hmin
    have hroom : n = (w.getBw ix).cap - (w.getBw ix).data.length := by omega
    have hdata : b.data = (w.getBw ix).data ++ (d.drop r.writeCbDataUsed).take n := by
      rw [← hb, ← hmin]
      simp
    exact ⟨.some hn hsome hroom (by simpa [Request.tryMarkPause] using hdata),
      fun jx hj => by simp [hj], fun _ => rfl⟩
  | some b n hsome happ hn =>
    obtain ⟨hb, hmin⟩ := Prod.mk.inj happ
    rw [List.length_drop] at hmin
    have hfit : d.length - r.writeCbDataUsed ≤ (w.getBw ix).cap - (w.getBw ix).data.length := by
      omega
    have hdata : b.data = (w.getBw ix).data ++ d.drop r.writeCbDataUsed := by
      rw [← hb, List.take_of_length_le]
      rw [List.length_drop]
      omega
    exact ⟨.all (fun _ => hfit) (by simpa using hdata), fun jx hj => by simp [hj],
      fun hne => absurd rfl hne⟩
  | full hd hall =>
    exact ⟨.none hall hd, fun jx _ => by cases jx <;> rfl, fun hne => absurd rfl hne⟩
  | all b hall happ =>
    have hdata : b.data = (w.getBw ix).data ++ d.drop r.writeCbDataUsed := by
      unfold BufWrapper.appendAll at happ
      split at happ
      · cases happ
      · cases happ
        rfl
    exact ⟨.all (fun h => absurd (hall.symm.trans h) nofun) (by simpa using hdata),
      fun jx hj => by simp [hj], fun hne => absurd rfl hne⟩

/-- What a callback that serves the read type does with its bytes. -/
structure Fed (rt : ReadType) (two : Bool) (k : Kind) (d : List β) (w : Awaiter β)
    (r : Request) (w' : Awaiter β) (r' : Request) (ret : Ret) : Prop where
  took : ∀ ix, streamOf rt two k = some ix →
    Took d r.writeCbDataUsed (w.getBw ix) (w'.getBw ix) r'.writeCbDataUsed ret
  frame : ∀ ix, streamOf rt two k ≠ some ix → w'.getBw ix = w.getBw ix
  skipped : streamOf rt two k = none →
    r'.writeCbDataUsed = 0 ∧ (ret = .bytes d.length ∨ ret = .pause)
  serves : Serves rt two r'
  fits : r'.writeCbDataUsed ≠ 0 → PauseFits rt r'.pauseType

theorem pauseFits_of_stream (h : streamOf rt two k = some ix) : PauseFits rt k.pauseType := by
  cases k <;> cases rt <;> simp_all [streamOf, PauseFits, Kind.pauseType]

theorem fed_of_took (hix : streamOf rt two k = some ix) (hs : Serves rt two r')
    (h : Took d r.writeCbDataUsed (w.getBw ix) (w'.getBw ix) r'.writeCbDataUsed ret ∧
      (∀ jx ≠ ix, w'.getBw jx = w.getBw jx) ∧
      (r'.writeCbDataUsed ≠ 0 → r'.pauseType = k.pauseType)) :
    Fed rt two k d w r w' r' ret := by
  obtain ⟨htook, hframe, hpause⟩ := h
  refine ⟨?_, ?_, fun hnone => ?_, hs, fun hne => ?_⟩
  · intro jx hj
    obtain rfl : ix = jx := Option.some.inj (hix.symm.trans hj)
    exact htook
  · intro jx hj
    exact hframe jx fun heq => hj (heq ▸ hix)
  · rw [hix] at hnone
    cases hnone
  · rw [hpause hne]
    exact pauseFits_of_stream hix

/-- Only the callback of an `until` read changes a callback, the other one. -/
theorem resumedWriteToBw_callback (hw : w.examStop = (false, w))
    (h : resumedWriteToBw ix pt d w r = (w', r', ret)) :
    r'.headerCb = r.headerCb ∧ r'.writeCb = r.writeCb := by
  cases resumedWriteToBw_cases hw h <;> exact ⟨rfl, rfl⟩

theorem Serves.congr (hs : Serves rt two r)
    (h : r'.headerCb = r.headerCb ∧ r'.writeCb = r.writeCb) : Serves rt two r' := by
  have hcb : ∀ k, r'.callback k = r.callback k := by
    intro k
    cases k with
    | hd => exact h.1
    | wd => exact h.2
  refine ⟨fun k ix hix => ?_, fun k hnone => ?_⟩
  · rw [hcb]
    exact hs.read k ix hix
  · rw [hcb]
    exact hs.unread k hnone

theorem Serves.setOther (hs : Serves rt two r) (hk : r.callback k = .untilOther k.pauseType)
    (hix : streamOf rt two k = some ix) (hother : streamOf rt two k.other = none) :
    Serves rt two (r.setOther k pt) := by
  refine ⟨fun j jx hj => ?_, fun j hj => ?_⟩
  · cases k <;> cases j
    · exact hs.read .hd jx hj
    · exact absurd hj (by rw [show streamOf rt two .wd = none from hother]; simp)
    · exact absurd hj (by rw [show streamOf rt two .hd = none from hother]; simp)
    · exact hs.read .wd jx hj
  · cases k <;> cases j
    · exact absurd hj (by simp [hix])
    · exact .inr ⟨pt, rfl⟩
    · exact .inr ⟨pt, rfl⟩
    · exact absurd hj (by simp [hix])

theorem invoke_fed (hw : w.examStop = (false, w)) (hs : Serves rt two r)
    (hused : r.writeCbDataUsed ≤ d.length)
    (hzero : streamOf rt two k = none → r.writeCbDataUsed = 0)
    (h : invoke k d w r = (w', r', ret)) : Fed rt two k d w r w' r' ret := by
  unfold invoke at h
  cases hix : streamOf rt two k with
  | some ix =>
    obtain hcb | ⟨hcb, rfl, hother⟩ := hs.read k ix hix
    · rw [hcb] at h
      exact fed_of_took hix (hs.congr (resumedWriteToBw_callback hw h))
        (resumedWriteToBw_took hw hused h)
    · rw [hcb] at h
      have htook := resumedWriteToBw_took hw (by simpa using hused) h
      rw [Request.setOther_writeCbDataUsed] at htook
      exact fed_of_took hix
        ((hs.setOther hcb hix hother).congr (resumedWriteToBw_callback hw h)) htook
  | none =>
    have hpause : ¬ ∃ ix, streamOf rt two k = some ix := by simp [hix]
    obtain hcb | ⟨pt, hcb⟩ := hs.unread k hix
    · rw [hcb] at h
      cases h
      exact ⟨fun ix h => absurd ⟨ix, h⟩ hpause, fun _ _ => rfl,
        fun _ => ⟨hzero hix, .inl rfl⟩, hs, fun hne => absurd (hzero hix) hne⟩
    · rw [hcb] at h
      simp only [pauseWhenCalled, hw, Bool.false_eq_true, if_false] at h
      split at h
      next hd =>
        cases h
        exact ⟨fun ix h => absurd ⟨ix, h⟩ hpause, fun _ _ => rfl,
          fun _ => ⟨hzero hix, .inl (by rw [hd])⟩, hs, fun hne => absurd (hzero hix) hne⟩
      next hd =>
        cases h
        exact ⟨fun ix h => absurd ⟨ix, h⟩ hpause, fun _ _ => rfl, fun _ => ⟨rfl, .inr rfl⟩,
          hs.congr ⟨rfl, rfl⟩, fun hne => absurd rfl hne⟩

theorem Fed.used_le (h : Fed rt two k d w r w' r' ret) :
    r'.writeCbDataUsed ≤ d.length ∧ (streamOf rt two k = none → r'.writeCbDataUsed = 0) ∧
      (ret ≠ .pause → r'.writeCbDataUsed = 0) := by
  cases hix : streamOf rt two k with
  | none =>
    have hzero := (h.skipped hix).1
    exact ⟨hzero ▸ Nat.zero_le _, fun _ => hzero, fun _ => hzero⟩
  | some ix =>
    have htook := h.took ix hix
    generalize r'.writeCbDataUsed = used', w'.getBw ix = b' at htook ⊢
    cases htook with
    | all hfit hdata => exact ⟨Nat.zero_le _, nofun, fun _ => rfl⟩
    | some hn => exact ⟨by omega, nofun, fun hne => absurd rfl hne⟩
    | none => exact ⟨Nat.zero_le _, nofun, fun _ => rfl⟩

theorem init_serves (rt : ReadType) (two : Bool) (r : Request) : Serves rt two (r.init rt two) := by
  refine ⟨fun k ix hix => ?_, fun k hnone => ?_⟩
  · cases rt <;> cases two <;> cases k <;>
      simp_all [streamOf, Request.init, Request.callback, Kind.pauseType, Kind.other]
  · cases rt <;> cases two <;> cases k <;>
      simp_all [streamOf, Request.init, Request.callback]

/-- A read of the same type keeps what an earlier one has begun. -/
theorem init_keeps (two : Bool) (h : r.writeCbDataUsed ≠ 0 → PauseFits rt r.pauseType) :
    (r.init rt two).writeCbDataUsed = r.writeCbDataUsed ∧
      (r.writeCbDataUsed ≠ 0 → (r.init rt two).pauseType = r.pauseType) := by
  have hclear : ∀ pt, (r.writeCbDataUsed ≠ 0 → r.pauseType = pt) →
      (r.clearPauseIfNot pt).writeCbDataUsed = r.writeCbDataUsed ∧
        (r.writeCbDataUsed ≠ 0 → (r.clearPauseIfNot pt).pauseType = r.pauseType) := by
    intro pt hpt
    unfold Request.clearPauseIfNot
    split
    next hne =>
      have hzero : r.writeCbDataUsed = 0 := by
        by_contra hu
        exact hne (hpt hu)
      exact ⟨hzero.symm, fun hu => absurd hzero hu⟩
    next => exact ⟨rfl, fun _ => rfl⟩
  cases rt with
  | hd => exact hclear .hd fun hu => (h hu).1 rfl
  | wd => exact hclear .wd fun hu => (h hu).2 rfl
  | hdWd => cases two <;> exact ⟨rfl, fun _ => rfl⟩
  | hdUntilWd => exact ⟨rfl, fun _ => rfl⟩
  | wdUntilHd => exact ⟨rfl, fun _ => rfl⟩

end Bytes

end Jkl.Client
