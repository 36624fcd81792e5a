import Jkl.Pb.Blocks

/-! What a read accepts: a sequence of records, unless the read went one of its silent ways. -/
namespace Jkl.Pb
open Base128

variable {m : Machine}

/-- Complete records of the wire types 0, 1, 2 and 5, and nothing else. -/
def WellFormed (b : List UInt8) : Prop := ∃ rs, b = Rec.join rs

/-- A message as it is written, perhaps with its length in front. -/
def Wire (skipLen : Bool) (b : List UInt8) : Prop :=
  if skipLen then WellFormed b else Delimited WellFormed b

section Fields

variable {flds : List Fld} {w : List UInt8} {vs : List Val} {k : ℕ}

theorem wellFormed_of_ends (hm : m.Strict) (hflds : Compile flds) {n : ℕ} {bits : Bits}
    {a : List Val × Bits}
    (h : Loop.Ends (msgTurn m flds (casesOf m flds)) ⟨w, w.length, n, vs, bits⟩ (.ok k a)) :
    WellFormed w := by
  generalize hs : (⟨w, w.length, n, vs, bits⟩ : MsgState) = s at h
  generalize hr : (.ok k a : MsgRes) = r at h
  induction h generalizing w n vs bits with
  | done h =>
    subst hs hr
    have hlen : w.length = 0 := (msgTurn_done_ok h).1
    exact ⟨[], List.length_eq_zero_iff.mp hlen⟩
  | next h ht ih =>
    subst hs hr
    obtain ⟨rs, x, n', vs', bits', rfl, rfl⟩ := msgTurn_block hm hflds h
    obtain ⟨rs', rfl⟩ := ih rfl rfl
    exact ⟨rs ++ rs', by rw [Rec.join_append]⟩

/-- Fields that were read are the end of the loop over them. -/
theorem readFields_loop {skipLen : Bool} {cases : List Case} {mem : List UInt8} {lim : ℕ}
    {vs' : List Val} (h : readFields m skipLen flds cases mem lim vs = .ok k vs') :
    ∃ a, loop (msgTurn m flds cases) lim ⟨mem, lim, 0, vs, fun _ => false⟩ = .ok k a := by
  unfold readFields at h
  cases hr : loop (msgTurn m flds cases) lim ⟨mem, lim, 0, vs, fun _ => false⟩ with
  | ok n a =>
    obtain ⟨-, hexam⟩ := check_eq_ok (hr ▸ h)
    cases hq : examSubFlds m a.2 0 flds a.1 with
    | ok i vs =>
      simp only [hq, Res.ok.injEq] at hexam
      exact ⟨a, by rw [hexam.1]⟩
    | err e => simp [hq] at hexam
    | stop x => simp [hq] at hexam
  | err e => simp [hr] at h
  | stop x => simp [hr] at h

theorem wellFormed_of_readFields (hm : m.Strict) (hflds : Compile flds) {skipLen : Bool}
    {vs' : List Val}
    (h : readFields m skipLen flds (casesOf m flds) w w.length vs = .ok k vs') : WellFormed w := by
  obtain ⟨a, hloop⟩ := readFields_loop h
  apply wellFormed_of_ends hm hflds
  rw [← hloop]
  exact ends_loop MsgState.lim msgTurn_progress le_rfl

/-- The read of a message that has no length in front. -/
theorem messageRead_top {cases : List Case} (mem : List UInt8) (lim : ℕ) (u : Val) :
    messageRead m true .null flds cases mem lim u =
      match readFields m true flds cases mem lim (u.membersOf flds.length) with
      | .ok n vs => .ok n (.msg vs)
      | .err (e, vs) => .err (e, .msg vs)
      | .stop x => .stop x := by
  unfold messageRead
  rfl

end Fields

namespace Schema

variable (s : Schema) {skipLen : Bool} {b : List UInt8} {d v : Val} {n : ℕ}

theorem read_eq_ok {mem : List UInt8} {lim : ℕ} (h : s.read m skipLen mem lim d = .ok n v) :
    messageRead m skipLen .null s.flds (casesOf m s.flds) mem lim d = .ok n v := by
  unfold Schema.read at h
  cases hr : messageRead m skipLen .null s.flds (casesOf m s.flds) mem lim d with
  | ok k w =>
    rw [hr] at h
    cases hc : s.check with
    | none => simpa [hc] using h
    | some c =>
      simp only [hc] at h
      cases hv : c.validate w.members with
      | none => simpa [hv] using h
      | some e => simp [hv] at h
  | err e => simp [hr] at h
  | stop x => simp [hr] at h

theorem fullRead_eq_ok (h : s.fullRead m skipLen b d = .ok n v) :
    s.read m skipLen b b.length d = .ok n v ∧ n = b.length := by
  unfold Schema.fullRead at h
  cases hr : s.read m skipLen b b.length d with
  | ok k w =>
    simp only [hr] at h
    split_ifs at h with hk
    cases h
    exact ⟨rfl, hk⟩
  | err e => simp [hr] at h
  | stop x => simp [hr] at h

/-- On the watched machine what is accepted is on the wire as it has to be. -/
theorem wire_of_fullRead (hm : m.Strict) (h : s.fullRead m skipLen b d = .ok n v) : Wire skipLen b := by
  obtain ⟨hread, rfl⟩ := s.fullRead_eq_ok h
  have hmsg := s.read_eq_ok hread
  unfold Wire
  cases skipLen with
  | true =>
    rw [if_pos rfl]
    rw [messageRead_top] at hmsg
    cases hr : readFields m true s.flds (casesOf m s.flds) b b.length
        (d.membersOf s.flds.length) with
    | ok k vs => exact wellFormed_of_readFields hm s.compile hr
    | err e => simp [hr] at hmsg
    | stop x => simp [hr] at hmsg
  | false =>
    rw [if_neg Bool.false_ne_true]
    obtain ⟨p, x, rfl, hlen, hform⟩ :=
      messageRead_framed hm .null s.flds (s.casesOf_bounded (m := m)) hmsg
    obtain rfl : x = [] := by
      apply List.length_eq_zero_iff.mp
      rw [List.length_append] at hlen
      omega
    rw [List.append_nil]
    apply hform.mono
    intro body ⟨vs, vs', hbody⟩
    exact wellFormed_of_readFields hm s.compile hbody

end Schema

/-- Where a read goes on silently over bytes that are no records, and the assertions. -/
def silentWays : List Event := [.wireType, .msgEnd, .packedEnd, .overrun, .longBool, .loneTag]

theorem strict_silentWays : (Machine.confined silentWays).Strict :=
  ⟨⟨rfl, rfl⟩, rfl, rfl, rfl⟩

namespace Schema

variable (s : Schema) (debug skipLen : Bool) (b : List UInt8) (d : Val)

/-- Only records are accepted, and whatever else there is is an error. -/
structure Sound : Prop where
  wire : ∀ n v, s.fullRead (.build debug) skipLen b d = .ok n v → Wire skipLen b
  errs : ∀ x, s.fullRead (.build debug) skipLen b d ≠ .stop x
  tags : ∀ e ∈ [Event.wireType, .loneTag],
    s.fullRead (.watch [.wireType, .loneTag]) skipLen b d ≠ .stop (.trap e)

/-- A machine that watches for less goes the same way, up to a stop that it does not know. -/
theorem fullRead_silentWays (m : Machine)
    (hle : ∀ e, m.traps e = true → (Machine.confined silentWays).traps e = true)
    (h : ∀ e, m.traps e = false →
      s.fullRead (.confined silentWays) skipLen b d ≠ .stop (.trap e)) :
    s.fullRead m skipLen b d = s.fullRead (.confined silentWays) skipLen b d :=
  s.fullRead_eq_of_quiet skipLen hle (Or.inr rfl) b d h

theorem build_le (e : Event) (h : (Machine.build debug).traps e = true) :
    (Machine.confined silentWays).traps e = true := by
  cases e <;> simp_all [Machine.build, Machine.isAssertion, Machine.confined, silentWays]

theorem watch_le (e : Event) (h : (Machine.watch [.wireType, .loneTag]).traps e = true) :
    (Machine.confined silentWays).traps e = true := by
  cases e <;> simp_all [Machine.watch, Machine.confined, silentWays]

/-- The read goes none of the silent ways and meets no unreachable label. -/
def Quiet : Prop := ∀ x, s.fullRead (.confined silentWays) skipLen b d ≠ .stop x

theorem sound_of_quiet (h : s.Quiet skipLen b d) : s.Sound debug skipLen b d := by
  have hbuild := s.fullRead_silentWays skipLen b d (.build debug) (build_le debug)
    fun e _ => h (.trap e)
  have hwatch := s.fullRead_silentWays skipLen b d (.watch [.wireType, .loneTag]) watch_le
    fun e _ => h (.trap e)
  constructor
  · intro n v hok
    rw [hbuild] at hok
    exact s.wire_of_fullRead strict_silentWays hok
  · intro x
    rw [hbuild]
    exact h x
  · intro e _
    rw [hwatch]
    exact h (.trap e)

/-- A tag that no element follows and a tag of an unknown wire type are what the read says
nothing of; an unreachable label is undefined. -/
theorem not_sound_of_stop {x : Stop}
    (hx : x = .unreachable ∨ x = .trap .wireType ∨ x = .trap .loneTag)
    (h : s.fullRead (.confined silentWays) skipLen b d = .stop x) :
    ¬ s.Sound debug skipLen b d := by
  intro hs
  rcases hx with rfl | hx
  · have hbuild := s.fullRead_silentWays skipLen b d (.build debug) (build_le debug) (by
      intro e _
      rw [h]
      nofun)
    exact hs.errs .unreachable (hbuild.trans h)
  · have hwatch := s.fullRead_silentWays skipLen b d (.watch [.wireType, .loneTag]) watch_le (by
      intro e he hstop
      rcases hx with rfl | rfl <;> cases h.symm.trans hstop <;> nomatch he)
    rw [h] at hwatch
    rcases hx with rfl | rfl
    · exact hs.tags .wireType (by simp) hwatch
    · exact hs.tags .loneTag (by simp) hwatch

/-- A quiet read accepts only records. A read that does so is quiet, but for a bytes field that
overran its region and a bool that was cut short. -/
theorem sound_quiet :
    (s.Quiet skipLen b d → s.Sound debug skipLen b d) ∧
      (s.Sound debug skipLen b d →
        ∀ x, s.fullRead (.confined silentWays) skipLen b d = .stop x →
          x ∈ [Event.msgEnd, .packedEnd, .overrun, .longBool].map Stop.trap) := by
  constructor
  · exact s.sound_of_quiet debug skipLen b d
  · intro hs x hx
    have hstops := s.fullRead_stops skipLen b d hx
    cases x with
    | fault => nomatch hstops
    | fuel => exact hstops.elim
    | unreachable => exact absurd hs (s.not_sound_of_stop debug skipLen b d (Or.inl rfl) hx)
    | trap e =>
      have hsilent : e ∈ silentWays := by simpa [Machine.confined] using hstops.1
      have hnot := fun hx' => s.not_sound_of_stop debug skipLen b d hx' hx
      simp only [silentWays, List.mem_cons, List.not_mem_nil, or_false] at hsilent
      rcases hsilent with rfl | rfl | rfl | rfl | rfl | rfl
      · exact absurd hs (hnot (Or.inr (Or.inl rfl)))
      · simp
      · simp
      · simp
      · simp
      · exact absurd hs (hnot (Or.inr (Or.inr rfl)))

/-- `pb_repeated(pb_string<"s", 1>())`. -/
def strings : Schema where
  flds := [.repeated (.bytes 1 ⟨none, 1, false⟩ .null) (.vec false) .null]
  check := none
  wf := by decide

/-- A tag alone is not a record. -/
theorem not_wellFormed_tag : ¬ WellFormed [10] := by
  rintro ⟨rs, h⟩
  cases rs with
  | nil => nomatch h
  | cons r rs =>
    have htag := r.numeral.1.length_pos
    have hpayload := List.length_pos_of_ne_nil r.form.ne_nil
    have hlen := congrArg List.length h
    rw [length_join_cons, List.length_singleton] at hlen
    omega

/-- A tag with nothing behind it is taken for a field without elements. -/
theorem not_sound : ¬ ∀ (s : Schema) (debug skipLen : Bool) (b : List UInt8) (d : Val),
    s.Sound debug skipLen b d := by
  intro h
  have hwire := (h strings false true [10] (.msg [.list []])).wire 1 (.msg [.list []])
    (by decide +kernel)
  exact not_wellFormed_tag hwire

end Schema

end Jkl.Pb
