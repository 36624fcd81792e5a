import Jkl.Pb.Accepted
import Jkl.Pb.Fates

/-! Fields that are not of the schema, put between the fields of a message. -/
namespace Jkl.Pb
open Base128

variable {m : Machine} {flds : List Fld}

/-- The ids of the fields of the schema. -/
def ids (flds : List Fld) : List ℕ := (flds.flatMap Fld.injectedFlds).map Fld.id

/-- The id of a record is not in the schema. -/
def Unknown (flds : List Fld) (r : Rec) : Prop := r.tag / 8 ∉ ids flds

instance (r : Rec) : Decidable (Unknown flds r) := by
  unfold Unknown; infer_instance

/-- An unpacked repeated field, or a map. -/
def Fld.isRun : Fld → Bool
  | repeated elem .. => !elem.isPacked
  | _ => false

/-- The tag is that of an unpacked repeated field or a map. -/
def RunTag (flds : List Fld) (tag : ℕ) : Prop := ∃ f ∈ flds, f.isRun = true ∧ f.tag = tag

/-- Between a record of tag `prev` and `rs` lies the inside of a run. -/
def InsideRun (flds : List Fld) (prev : Option ℕ) (rs : List Rec) : Prop :=
  ∃ r ∈ rs.head?, prev = some r.tag ∧ RunTag flds r.tag

/-- `rs'` is `rs` with unknown fields put between its records, but not within a run; `prev` is the
tag of the record before. -/
inductive Inserted (flds : List Fld) : Option ℕ → List Rec → List Rec → Prop where
  | nil {prev : Option ℕ} : Inserted flds prev [] []
  | keep {prev : Option ℕ} {r : Rec} {rs rs' : List Rec} (h : Inserted flds (some r.tag) rs rs') :
      Inserted flds prev (r :: rs) (r :: rs')
  | insert {prev : Option ℕ} {u : Rec} {rs rs' : List Rec} (hu : Unknown flds u)
      (hrun : ¬ InsideRun flds prev rs) (h : Inserted flds prev rs rs') :
      Inserted flds prev rs (u :: rs')

/-- The number of the labels that belong to fields. -/
def caseCount (flds : List Fld) : ℕ := (flds.flatMap Fld.injectedFlds).length

section Cases

theorem length_oneofReads {I : ℕ} {mems : List Fld} :
    (oneofReads I mems (Fld.injectedFldReads m mems)).length = mems.length := by
  induction mems generalizing I with
  | nil => rfl
  | cons f fs ih => simp [Fld.injectedFldReads, oneofReads, ih]

theorem length_injectedFldRead (f : Fld) :
    (f.injectedFldRead m).length = f.injectedFlds.length := by
  cases f with
  | oneof p mems => exact length_oneofReads
  | _ => rfl

end Cases

section Following

/-- A field that is not of the schema does not go on with a run. -/
theorem not_goesOn_of_unknown (hflds : Compile flds) {r : Rec} (hr : Unknown flds r) (i : ℕ) :
    ¬GoesOn flds i [r] := by
  intro h
  obtain ⟨elem, c, p, hf, -, htag⟩ := h r List.mem_cons_self
  have hmem := List.mem_of_getElem? hf
  have hid : elem.id ∈ ids flds :=
    List.mem_map.mpr ⟨.repeated elem c p,
      List.mem_flatMap.mpr ⟨_, hmem, by simp [Fld.injectedFlds]⟩, rfl⟩
  have hval : r.tag = mkTag elem.id elem.wireType := by
    rw [Rec.tag, htag, varintBytes_eq (elem_tag_lt hflds hmem), value_encode, Fld.tag]
  have hcode : elem.wireType.code < 8 := by cases elem.wireType <;> decide
  have hdiv : r.tag / 8 = elem.id := by
    rw [hval, mkTag_eq]
    omega
  exact hr (hdiv ▸ hid)

end Following

section Runs

end Runs

/-- A field that is not of the schema meets a label of no field. -/
def Padded (flds : List Fld) (r : Rec) : Prop :=
  Unknown flds r ∧ isPadding (caseCount flds) r.tag = true

instance (r : Rec) : Decidable (Padded flds r) := by
  unfold Padded; infer_instance

section Loop

/-- How the loop ends on the records `rs` from count `n` on. -/
def Outcome (flds : List Fld) (rs : List Rec) (n : ℕ) (a : List Val × Bits) (r : MsgRes) : Prop :=
  (r = .ok (n + (Rec.join rs).length) a ∧ ∀ u ∈ rs, ¬ Padded flds u) ∨
    (r = .stop .unreachable ∧ ∃ u ∈ rs, Padded flds u)

variable {n : ℕ} {a : List Val × Bits} {r : MsgRes}

theorem Outcome.append {B rs : List Rec} (hB : ∀ u ∈ B, ¬ Padded flds u)
    (h : Outcome flds rs (n + (Rec.join B).length) a r) : Outcome flds (B ++ rs) n a r := by
  rcases h with ⟨hr, hrs⟩ | ⟨hr, u, hu, hpad⟩
  · refine Or.inl ⟨?_, ?_⟩
    · rw [hr, Rec.join_append, List.length_append, Nat.add_assoc]
    · intro u hu
      rcases List.mem_append.mp hu with hu | hu
      · exact hB u hu
      · exact hrs u hu
  · exact Or.inr ⟨hr, u, List.mem_append_right _ hu, hpad⟩

/-- A run that ends before a record ends before what is inserted there. -/
theorem Inserted.head (hflds : Compile flds) {prev : Option ℕ} {rs rs' : List Rec} {i : ℕ}
    (h : Inserted flds prev rs rs') (hhead : ∀ r ∈ rs.head?, ¬GoesOn flds i [r]) :
    ∀ r ∈ rs'.head?, ¬GoesOn flds i [r] := by
  intro r' hr'
  cases h with
  | nil => nomatch hr'
  | keep h =>
    obtain rfl : _ = r' := by simpa using hr'
    exact hhead _ rfl
  | insert hu hrun h =>
    obtain rfl : _ = r' := by simpa using hr'
    exact not_goesOn_of_unknown hflds hu i

/-- The turns over a record that is not of the schema. -/
theorem msgTurn_skip {u : Rec} {rs : List Rec} {vs : List Val} {bits : Bits}
    (hown : ownCase (casesOf m flds) u.tag = none)
    (hpad : isPadding (casesOf m flds).length u.tag = false) :
    msgTurn m flds (casesOf m flds) ⟨Rec.join (u :: rs), (Rec.join (u :: rs)).length, n, vs, bits⟩ =
      .next ⟨Rec.join rs, (Rec.join rs).length, n + (Rec.join [u]).length, vs, bits⟩ := by
  have hturn : msgTurn m flds (casesOf m flds)
      ⟨Rec.join (u :: rs) ++ [], (Rec.join (u :: rs)).length, n, vs, bits⟩ =
      .next ⟨Rec.join rs ++ [], (Rec.join rs).length, n + u.bytes.length, vs, bits⟩ :=
    msgTurn_unknown_rec hown hpad
  simpa using hturn

/-- The turn at a record that meets a label of no field. -/
theorem msgTurn_unreachable {u : Rec} {rs : List Rec} {vs : List Val} {bits : Bits}
    (hown : ownCase (casesOf m flds) u.tag = none)
    (hpad : isPadding (casesOf m flds).length u.tag = true) :
    msgTurn m flds (casesOf m flds) ⟨Rec.join (u :: rs), (Rec.join (u :: rs)).length, n, vs, bits⟩ =
      .done (.stop .unreachable) := by
  have hturn : msgTurn m flds (casesOf m flds)
      ⟨Rec.join (u :: rs) ++ [], (Rec.join (u :: rs)).length, n, vs, bits⟩ =
      .done (.stop .unreachable) :=
    msgTurn_padding_rec hown hpad
  simpa using hturn

theorem unpadded_of_ends {u : Rec} {rest : List Rec} {vs : List Val} {bits : Bits} {k : ℕ}
    (hown : ownCase (casesOf m flds) u.tag = none)
    (h : EndsOn m flds (u :: rest) n vs bits (.ok k a)) :
    isPadding (casesOf m flds).length u.tag = false := by
  by_contra hpad
  have hstop : EndsOn m flds (u :: rest) n vs bits (.stop .unreachable) :=
    .done (msgTurn_unreachable hown (by simpa using hpad))
  nomatch h.unique hstop

end Loop

namespace Schema

variable (s : Schema)

/-- What is left of `full_read` behind the loop over the fields. -/
def finish (m : Machine) (n lim : ℕ) (a : List Val × Bits) : Rd :=
  match examSubFlds m a.2 0 s.flds a.1 with
  | .ok _ vs =>
    match s.check.bind fun c => c.validate vs with
    | none => if n = lim then .ok n (.msg vs) else .err (.moreDataThanRequired, .msg vs)
    | some e => .err (e, .msg vs)
  | .err (e, vs) => .err (e, .msg vs)
  | .stop x => .stop x

/-- The loop of the top level. -/
def topLoop (m : Machine) (b : List UInt8) (d : Val) : MsgRes :=
  loop (msgTurn m s.flds (casesOf m s.flds)) b.length
    ⟨b, b.length, 0, d.membersOf s.flds.length, fun _ => false⟩

theorem topLoop_eq {b : List UInt8} {d : Val} {r : MsgRes}
    (h : Loop.Ends (msgTurn m s.flds (casesOf m s.flds))
      ⟨b, b.length, 0, d.membersOf s.flds.length, fun _ => false⟩ r) : s.topLoop m b d = r :=
  loop_msgTurn h le_rfl

theorem ends_topLoop (m : Machine) (b : List UInt8) (d : Val) :
    Loop.Ends (msgTurn m s.flds (casesOf m s.flds))
      ⟨b, b.length, 0, d.membersOf s.flds.length, fun _ => false⟩ (s.topLoop m b d) :=
  ends_loop MsgState.lim msgTurn_progress le_rfl

theorem fullRead_eq (m : Machine) (b : List UInt8) (d : Val) :
    s.fullRead m true b d = match s.topLoop m b d with
      | .ok n a => s.finish m n b.length a
      | .err (e, vs) => .err (e, .msg vs)
      | .stop x => .stop x := by
  unfold Schema.fullRead Schema.read
  rw [messageRead_top]
  unfold readFields
  show _ = match loop (msgTurn m s.flds (casesOf m s.flds)) b.length _ with
    | .ok n a => s.finish m n b.length a
    | .err (e, vs) => .err (e, .msg vs)
    | .stop x => .stop x
  cases loop (msgTurn m s.flds (casesOf m s.flds)) b.length
      ⟨b, b.length, 0, d.membersOf s.flds.length, fun _ => false⟩ with
  | err e => rfl
  | stop x => rfl
  | ok n a =>
    obtain ⟨vs, bits⟩ := a
    have hcheck : ∀ r : Res (PbErr × List Val) (List Val),
        m.check .msgEnd (!true && decide (n ≠ b.length)) r = r := by
      intro r
      simp [Machine.check]
    unfold finish
    dsimp only
    rw [hcheck]
    cases examSubFlds m bits 0 s.flds vs with
    | err e => rfl
    | stop x => rfl
    | ok i vs' =>
      cases hc : s.check with
      | none => rfl
      | some c =>
        simp only [Option.bind_some, Val.members]
        cases c.validate vs' <;> rfl

theorem finish_shift {n n' : ℕ} {a : List Val × Bits} {v : Val}
    (h : s.finish m n n a = .ok n v) : s.finish m n' n' a = .ok n' v := by
  unfold finish at h ⊢
  cases hexam : examSubFlds m a.2 0 s.flds a.1 with
  | ok i vs =>
    simp only [hexam] at h ⊢
    cases hc : s.check.bind fun c => c.validate vs with
    | none => simpa [hc] using h
    | some e => simp [hc] at h
  | err e => simp [hexam] at h
  | stop x => simp [hexam] at h

theorem finish_eq_ok {k n lim : ℕ} {a : List Val × Bits} {v : Val}
    (h : s.finish m k lim a = .ok n v) : k = lim := by
  unfold finish at h
  cases hexam : examSubFlds m a.2 0 s.flds a.1 with
  | ok i vs =>
    simp only [hexam] at h
    cases hc : s.check.bind fun c => c.validate vs with
    | none =>
      simp only [hc] at h
      split_ifs at h with hk
      exact hk
    | some e => simp [hc] at h
  | err e => simp [hexam] at h
  | stop x => simp [hexam] at h

/-- A full read that goes well is a loop to the end of the bytes and what is left behind it. -/
theorem topLoop_of_fullRead {b : List UInt8} {d v : Val} {n : ℕ}
    (h : s.fullRead m true b d = .ok n v) :
    n = b.length ∧ ∃ a, s.topLoop m b d = .ok n a ∧ s.finish m n n a = .ok n v := by
  obtain ⟨-, rfl⟩ := s.fullRead_eq_ok h
  rw [fullRead_eq] at h
  cases hloop : s.topLoop m b d with
  | ok k a =>
    simp only [hloop] at h
    obtain rfl := s.finish_eq_ok h
    exact ⟨rfl, a, rfl, h⟩
  | err e => simp [hloop] at h
  | stop x => simp [hloop] at h

theorem fullRead_of_topLoop {b : List UInt8} {d v : Val} {n : ℕ} {a : List Val × Bits}
    (hloop : s.topLoop m b d = .ok b.length a) (h : s.finish m n n a = .ok n v) :
    s.fullRead m true b d = .ok b.length v := by
  rw [fullRead_eq, hloop]
  exact s.finish_shift h

end Schema

/-- The library as it is built, in memory that ends with each region, watched for a bytes field that
is longer than its region. -/
def Machine.inRegions (debug : Bool) : Machine :=
  ⟨true, fun e => (Machine.build debug).traps e || e == .overrun⟩

theorem regional_inRegions (debug : Bool) : (Machine.inRegions debug).Regional :=
  ⟨rfl, by cases debug <;> rfl⟩

namespace Schema

variable (s : Schema)

/-- No bytes field that is read, at whatever depth, is longer than what is left of its region. -/
def Contained (b : List UInt8) (d : Val) : Prop :=
  s.fullRead (.watch [.overrun]) true b d ≠ .stop (.trap .overrun)

/-- The bytes that a contained read takes are those that stay in bounds. -/
theorem contained_iff (debug : Bool) (b : List UInt8) (d : Val) :
    s.Contained b d ↔ s.InBounds true debug b [] d := by
  rw [inBounds_iff, List.append_nil, Contained, not_iff_not, fullRead]
  cases s.read (.watch [.overrun]) true b b.length d with
  | ok n v =>
    simp only [reduceCtorEq, iff_false]
    split_ifs <;> nofun
  | err e => exact Iff.rfl
  | stop x => exact Iff.rfl

theorem fullRead_inRegions (debug : Bool) {b : List UInt8} {d : Val}
    (h : s.fullRead (.inRegions debug) true b d ≠ .stop (.trap .overrun)) :
    s.fullRead (.build debug) true b d = s.fullRead (.inRegions debug) true b d := by
  refine s.fullRead_eq_of_quiet true (fun e he => by simp [Machine.inRegions, he]) (Or.inr ?_) b d
    fun e he hstop => ?_
  · exact (regional_inRegions debug).overrun
  · have htrap := (s.fullRead_stops true b d hstop).1
    obtain rfl : e = .overrun := by simpa [Machine.inRegions, he] using htrap
    exact h hstop

/-- A read that is contained goes on alike in memory that ends with each region. -/
theorem fullRead_of_contained (debug : Bool) {b : List UInt8} {d : Val} (h : s.Contained b d) :
    s.fullRead (.build debug) true b d = s.fullRead (.inRegions debug) true b d := by
  refine s.fullRead_inRegions debug fun hstop => h ?_
  rw [← hstop]
  refine s.fullRead_eq_of_quiet true (fun e he => ?_) (Or.inr ?_) b d fun e he hstop' => ?_
  · obtain rfl : e = .overrun := by simpa [Machine.watch] using he
    exact (regional_inRegions debug).overrun
  · exact (regional_inRegions debug).overrun
  · rw [hstop] at hstop'
    cases hstop'
    nomatch he

/-- `pb_int32<"i", 1>()`. -/
def int32 : Schema where
  flds := [.varint 1 .int32 .i32 .null]
  check := none
  wf := by decide

theorem numeral_tag₁ : Numeral 32 [8] := by decide

theorem varint_tag₁ : value [8] % 8 = 0 := by decide

theorem numeral_tag₂ : Numeral 32 [16] := by decide

theorem varint_tag₂ : value [16] % 8 = 0 := by decide

/-- The number 7 as field 2. -/
def other : Rec := .ofVarint [16] [7] numeral_tag₂ varint_tag₂ (by decide)

end Schema

end Jkl.Pb
