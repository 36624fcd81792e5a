import Jkl.Pb.Dispatch
import Jkl.Pb.VarintSpec

/-! How far a read gets and how it can end, on any machine. -/
namespace Jkl.Pb

namespace Machine

/-- A reader of the schema can fail with `tag_mismatch`. -/
def Mismatches (m : Machine) : Prop := m.traps .shortRun = false ∨ m.traps .checkMismatch = false

/-- What a read of readable memory can stop with. It never runs out of turns. -/
def Stops (m : Machine) : Stop → Prop
  | .fault => m.traps .overrun = false
  | .unreachable => True
  | .trap e => m.traps e = true ∧ (e = .swallow → m.Mismatches)
  | .fuel => False

end Machine

variable {m : Machine} {α β : Type} {lim : ℕ}

/-- A primitive read moves on within the limit and knows no tags. -/
def Res.Primitive : Scan α → ℕ → Prop
  | .ok n _, lim => n ≤ lim
  | .err e, _ => e ≠ .tagMismatch
  | .stop _, _ => False

/-- Unless a bytes field overran its region, a read ends within it. -/
def Res.Bounded (m : Machine) : Res (PbErr × β) α → ℕ → Prop
  | .ok n _, lim => m.traps .overrun = true → n ≤ lim
  | .err (e, _), _ => e = .tagMismatch → m.Mismatches
  | .stop x, _ => m.Stops x

abbrev Reader.Bounded (m : Machine) (read : Reader) : Prop :=
  ∀ ⦃mem lim⦄, lim ≤ mem.length → ∀ u, (read mem lim u).Bounded m lim

/-- A read that goes well takes at least a byte. -/
abbrev Reader.Progress (read : Reader) : Prop :=
  ∀ ⦃mem lim u n v⦄, read mem lim u = .ok n v → 0 < n

/-! Parts of the readers. -/

/-- What `read_impl` of a message makes of the read of its fields. -/
def msgOf (p : Params) : Res (PbErr × List Val) (List Val) → Rd
  | .ok n vs => .ok n (p.wrap (.msg vs))
  | .err (e, vs) => .err (e, p.wrap (.msg vs))
  | .stop x => .stop x

/-- A payload of static length, read into elements that are there already. -/
def readOver (m : Machine) (elem : Fld) (c : Container) (read : Reader) (mem : List UInt8)
    (len : ℕ) (es : List Val) : Rd :=
  if elem.sameAsWireLayout c then
    match load len mem with
    | none => .stop .fault
    | some bs => .ok len (.list (objectVals elem.elemType elem.staticFldSize
        (len / elem.staticFldSize) bs))
  else listOf (readEach m elem read true es mem len)

theorem readStatic_eq (elem : Fld) (c : Container) (read : Reader) (mem : List UInt8) (len : ℕ)
    (u : Val) : readStatic m elem c read mem len u =
      match c with
      | .fixed n _ =>
        if len / elem.staticFldSize = n then readOver m elem c read mem len (u.elemsOf n)
        else .err (.invalidLength, u)
      | _ => readOver m elem c read mem len
          ((u.elems ++ List.replicate (len / elem.staticFldSize) elem.freshVal).take
            (len / elem.staticFldSize)) := rfl

theorem advance_eq_ok {ε : Type} {r : Res ε α} {k n : ℕ} {a : α} (h : r.advance k = .ok n a) :
    ∃ n', r = .ok n' a ∧ n = k + n' := by
  cases r with
  | ok n' a' =>
    cases h
    exact ⟨n', rfl, rfl⟩
  | err e => nomatch h
  | stop x => nomatch h

theorem andThen_eq_ok {p : Scan α} {u v : Val} {k : ℕ → α → Rd} {n : ℕ}
    (h : p.andThen u k = .ok n v) : ∃ n' a, p = .ok n' a ∧ k n' a = .ok n v := by
  cases p with
  | ok n' a => exact ⟨n', a, rfl, h⟩
  | err e => nomatch h
  | stop x => nomatch h

theorem check_eq_ok {ε : Type} {r : Res ε α} {e : Event} {bad : Bool} {n : ℕ} {a : α}
    (h : m.check e bad r = .ok n a) : (m.traps e && bad) = false ∧ r = .ok n a := by
  unfold Machine.check at h
  split_ifs at h with hb
  exact ⟨by simpa using hb, h⟩

theorem bounded_check {r : Res (PbErr × β) α} {e : Event} {bad : Bool} (he : e ≠ .swallow)
    (h : (m.traps e && bad) = false → r.Bounded m lim) : (m.check e bad r).Bounded m lim := by
  unfold Machine.check
  split_ifs with ht
  · rw [Bool.and_eq_true] at ht
    exact ⟨ht.1, fun hs => absurd hs he⟩
  · exact h (by simpa using ht)

theorem bounded_advance {r : Res (PbErr × β) α} {len : ℕ} (h : r.Bounded m len) (k : ℕ) :
    (r.advance k).Bounded m (k + len) := by
  cases r with
  | ok n a => exact fun ht => Nat.add_le_add_left (h ht) k
  | err e => exact h
  | stop x => exact h

theorem Res.Bounded.mono {r : Res (PbErr × β) α} {lim' : ℕ} (h : r.Bounded m lim) (hl : lim ≤ lim') :
    r.Bounded m lim' := by
  cases r with
  | ok n a => exact fun ht => (h ht).trans hl
  | err e => exact h
  | stop x => exact h

theorem bounded_andThen {p : Scan α} {v : Val} {k : ℕ → α → Rd} (hp : p.Primitive lim)
    (hk : ∀ n a, p = .ok n a → n ≤ lim → (k n a).Bounded m lim) : (p.andThen v k).Bounded m lim := by
  cases p with
  | ok n a => exact hk n a rfl hp
  | err e => exact fun he => absurd he hp
  | stop x => exact hp.elim

theorem readVarintUint_primitive (bits : ℕ) {mem : List UInt8} (hm : lim ≤ mem.length) :
    (readVarintUint bits mem lim).Primitive lim := by
  cases h : readVarintUint bits mem lim with
  | ok n u => exact (readVarintUint_le h).2.1
  | err e =>
    unfold readVarintUint at h
    show e ≠ .tagMismatch
    split_ifs at h
    · simp [readVarintFast_err h]
    · simp [readVarintSlow_err h]
  | stop x => exact (readVarintUint_ne_stop hm h).elim

theorem readVarint_primitive (zigzag : Bool) (c : CInt) {mem : List UInt8} (hm : lim ≤ mem.length) :
    (readVarint zigzag c mem lim).Primitive lim := by
  unfold readVarint
  by_cases hc : c = .bool
  · rw [if_pos hc]
    by_cases hl : 0 < lim
    · rw [if_pos hl]
      cases mem with
      | nil => simp at hm; omega
      | cons b mem => exact hl
    · rw [if_neg hl]
      show PbErr.varintIncomplete ≠ .tagMismatch
      simp
  · rw [if_neg hc]
    have h := readVarintUint_primitive (varintUintBits zigzag c) hm
    cases hr : readVarintUint (varintUintBits zigzag c) mem lim <;> rw [hr] at h <;> exact h

theorem readVarint_pos {zigzag : Bool} {c : CInt} {mem : List UInt8} {n : ℕ} {x : ℤ}
    (h : readVarint zigzag c mem lim = .ok n x) : 0 < n := by
  unfold readVarint at h
  by_cases hc : c = .bool
  · rw [if_pos hc] at h
    split_ifs at h
    cases mem with
    | nil => simp at h
    | cons b mem => simp at h; omega
  · rw [if_neg hc] at h
    cases hr : readVarintUint (varintUintBits zigzag c) mem lim with
    | ok k u =>
      rw [hr] at h
      simp only [Res.ok.injEq] at h
      have := (readVarintUint_le hr).1
      omega
    | err e => simp [hr] at h
    | stop x => simp [hr] at h

theorem le_length_drop {mem : List UInt8} (h : lim ≤ mem.length) (k : ℕ) :
    lim - k ≤ (mem.drop k).length := by
  rw [List.length_drop]
  omega

theorem length_region {mem : List UInt8} {len : ℕ} (h : len ≤ mem.length) :
    len ≤ (m.region mem len).length := by
  unfold Machine.region
  split_ifs
  · simpa using h
  · exact h

theorem load_isSome {n : ℕ} {mem : List UInt8} (h : n ≤ mem.length) :
    load n mem = some (mem.take n) := by
  rw [load, if_pos h]

theorem varintRead_bounded (ty : VarintTy) (c : CInt) (p : Params) :
    Reader.Bounded m (varintRead m ty c p) := by
  intro mem lim hm u
  apply bounded_andThen (readVarint_primitive _ _ hm)
  intro n t _ hn
  exact bounded_check (by simp) fun _ _ => hn

theorem fixedRead_bounded (ty : FixedTy) (c : CInt) (p : Params) :
    Reader.Bounded m (fixedRead ty c p) := by
  intro mem lim hm u
  unfold fixedRead
  split_ifs with hl
  · rw [load_isSome (hl.trans hm)]
    exact fun _ => hl
  · exact fun he => absurd he (by simp)

theorem bytesRead_bounded (b : Buf) (p : Params) : Reader.Bounded m (bytesRead m b p) := by
  intro mem lim hm u
  apply bounded_andThen (readVarintUint_primitive _ hm)
  intro k len _ hk
  dsimp only
  by_cases hfit : b.accepts len = true
  · rw [if_pos hfit]
    apply bounded_check (by simp)
    intro hover
    have hover : m.traps .overrun = true → k + len ≤ lim := by
      intro ht
      simpa [ht] using hover
    unfold load
    by_cases hlen : len ≤ (mem.drop k).length
    · rw [if_pos hlen]
      exact hover
    · rw [if_neg hlen]
      show m.traps .overrun = false
      rw [List.length_drop] at hlen
      by_contra ht
      have := hover (by simpa using ht)
      omega
  · rw [if_neg hfit]
    exact fun he => absurd he (by simp)

theorem ends_loop {σ ε : Type} {step : σ → Loop.Turn σ (Res ε α)} (μ : σ → ℕ)
    (hμ : ∀ s s', step s = .next s' → μ s' < μ s) {s : σ} (h : μ s ≤ lim) :
    Loop.Ends step s (loop step lim s) := by
  obtain ⟨r, hr⟩ := Option.isSome_iff_exists.mp (Loop.run_isSome μ hμ (by omega : μ s < lim + 2))
  rw [loop, hr]
  exact Loop.ends_of_run hr

theorem startsWithVarintBytes_lt {u : ℕ} {mem : List UInt8} {k : ℕ}
    (h : startsWithVarintBytes u mem lim = some k) : k < lim := by
  unfold startsWithVarintBytes at h
  split_ifs at h with hc
  simp only [Option.some.injEq] at h
  omega

theorem examTag_le {elem : Fld} {first : Bool} {mem : List UInt8} {k : ℕ}
    (h : examTag elem first mem lim = some k) : k ≤ lim ∧ (0 < lim → k < lim) := by
  unfold examTag at h
  split_ifs at h
  · simp only [Option.some.injEq] at h
    omega
  · have := startsWithVarintBytes_lt h
    omega

theorem elemTurn_next {elem : Fld} {c : Container} {read : Reader} {s s' : ElemState}
    (h : elemTurn elem c read s = .next s') :
    ∃ k n v, 0 < s.lim ∧ examTag elem s.acc.isEmpty s.mem s.lim = some k ∧
      read (s.mem.drop k) (s.lim - k) elem.freshVal = .ok n v ∧
      s' = ⟨s.mem.drop (k + n), s.lim - (k + n), s.n + (k + n), c.add s.acc v⟩ := by
  unfold elemTurn at h
  split_ifs at h with hlim
  cases hk : examTag elem s.acc.isEmpty s.mem s.lim with
  | none => simp [hk] at h
  | some k =>
    cases hr : read (s.mem.drop k) (s.lim - k) elem.freshVal with
    | ok n v =>
      simp only [hk, hr] at h
      exact ⟨k, n, v, by omega, rfl, hr, (Loop.Turn.next.inj h).symm⟩
    | err e => simp [hk, hr] at h
    | stop x => simp [hk, hr] at h

theorem elemTurn_progress {elem : Fld} {c : Container} {read : Reader} (hread : read.Progress)
    (s s' : ElemState) (h : elemTurn elem c read s = .next s') : s'.lim < s.lim := by
  obtain ⟨k, n, v, hlim, hk, hr, rfl⟩ := elemTurn_next h
  have := hread hr
  show s.lim - (k + n) < s.lim
  omega

theorem elemTurn_bounded {elem : Fld} {c : Container} {read : Reader}
    (hread : Reader.Bounded m read) {s : ElemState} {r : Rd} (hm : s.lim ≤ s.mem.length)
    (hn : m.traps .overrun = true → s.n + s.lim = lim) (h : elemTurn elem c read s = .done r) :
    r.Bounded m lim := by
  have hend : Res.Bounded m (.ok s.n (.list s.acc) : Rd) lim := by
    intro ht
    have := hn ht
    omega
  unfold elemTurn at h
  split_ifs at h with hlim
  · rw [← Loop.Turn.done.inj h]
    exact hend
  · cases hk : examTag elem s.acc.isEmpty s.mem s.lim with
    | none =>
      simp only [hk, Loop.Turn.done.injEq] at h
      rw [← h]
      exact hend
    | some k =>
      have hr := hread (le_length_drop hm k) elem.freshVal
      simp only [hk] at h
      cases hq : read (s.mem.drop k) (s.lim - k) elem.freshVal with
      | ok n v => simp [hq] at h
      | err e =>
        rw [hq] at hr
        simp only [hq, Loop.Turn.done.injEq] at h
        rw [← h]
        exact hr
      | stop x =>
        rw [hq] at hr
        simp only [hq, Loop.Turn.done.injEq] at h
        rw [← h]
        exact hr

theorem elems_bounded (elem : Fld) (c : Container) {read : Reader} (hread : Reader.Bounded m read)
    (hp : read.Progress) {mem : List UInt8} (hm : lim ≤ mem.length) :
    (loop (elemTurn elem c read) lim ⟨mem, lim, 0, []⟩).Bounded m lim := by
  have hends : Loop.Ends (elemTurn elem c read) ⟨mem, lim, 0, []⟩ _ :=
    ends_loop ElemState.lim (elemTurn_progress hp) le_rfl
  refine hends.invariant
    (fun s => s.lim ≤ s.mem.length ∧ (m.traps .overrun = true → s.n + s.lim = lim))
    (fun r => r.Bounded m lim) ⟨hm, fun _ => Nat.zero_add lim⟩ ?_ ?_
  · intro s s' ⟨hmem, hn⟩ hs
    obtain ⟨k, n, v, hlim, hk, hr, rfl⟩ := elemTurn_next hs
    have hb := hread (le_length_drop hmem k) elem.freshVal
    rw [hr] at hb
    refine ⟨le_length_drop hmem (k + n), ?_⟩
    · intro ht
      have h1 := hn ht
      have h2 := hb ht
      have h3 := (examTag_le hk).1
      simp only
      omega
  · intro s r ⟨hmem, hn⟩ hs
    exact elemTurn_bounded hread hmem hn hs

theorem readEach_bounded (elem : Fld) {read : Reader} (hread : Reader.Bounded m read) (first : Bool)
    (es : List Val) {mem : List UInt8} (hm : lim ≤ mem.length) :
    (readEach m elem read first es mem lim).Bounded m lim := by
  induction es generalizing first mem lim with
  | nil => exact fun _ => Nat.zero_le lim
  | cons e es ih =>
    unfold readEach
    cases hk : examTag elem first mem lim with
    | none =>
      apply bounded_check (by simp)
      intro ht _
      exact Or.inl (by simpa using ht)
    | some k =>
      have hr := hread (le_length_drop hm k) e
      dsimp only
      cases hq : read (mem.drop k) (lim - k) e with
      | ok n v =>
        rw [hq] at hr
        have hrest := ih false (le_length_drop hm (k + n))
        dsimp only
        cases hq' : readEach m elem read false es (mem.drop (k + n)) (lim - (k + n)) with
        | ok n' vs =>
          rw [hq'] at hrest
          intro ht
          have h1 := hr ht
          have h2 := hrest ht
          have h3 := (examTag_le hk).1
          omega
        | err e =>
          rw [hq'] at hrest
          exact hrest
        | stop x =>
          rw [hq'] at hrest
          exact hrest
      | err e =>
        rw [hq] at hr
        exact hr
      | stop x =>
        rw [hq] at hr
        exact hr

theorem listOf_bounded {q : Res (PbErr × List Val) (List Val)} (h : q.Bounded m lim) :
    (listOf q).Bounded m lim := by
  cases q <;> exact h

theorem readStatic_bounded (elem : Fld) (c : Container) {read : Reader}
    (hread : Reader.Bounded m read) {mem : List UInt8} {len : ℕ} (hm : len ≤ mem.length) (u : Val) :
    (readStatic m elem c read mem len u).Bounded m len := by
  have hinto : ∀ es : List Val, (readOver m elem c read mem len es).Bounded m len := by
    intro es
    unfold readOver
    split_ifs
    · rw [load_isSome hm]
      exact fun _ => le_rfl
    · exact listOf_bounded (readEach_bounded elem hread true es hm)
  rw [readStatic_eq]
  cases c with
  | fixed n array =>
    dsimp only
    by_cases hcnt : len / elem.staticFldSize = n
    · rw [if_pos hcnt]
      exact hinto _
    · rw [if_neg hcnt]
      exact fun he => absurd he (by simp)
  | _ => exact hinto _

theorem bounded_then {k : ℕ → Val → Rd} {r : Rd} (hr : r.Bounded m lim)
    (hk : ∀ n v, r = .ok n v → (k n v).Bounded m lim) :
    Res.Bounded m (match r with
      | .ok n v => k n v
      | r => r) lim := by
  cases r with
  | ok n v => exact hk n v rfl
  | err e => exact hr
  | stop x => exact hr

theorem readElems_bounded (elem : Fld) (c : Container) {read : Reader}
    (hread : Reader.Bounded m read) (hp : read.Progress) {mem : List UInt8} {len : ℕ}
    (hm : len ≤ mem.length) (u : Val) : (readElems m elem c read mem len u).Bounded m len := by
  have hloop := elems_bounded elem c hread hp hm
  have hstatic := readStatic_bounded elem c hread hm u
  have hcleared := bounded_then
    (k := fun n v =>
      if elem.isPacked && n ≠ len then .err (.invalidLength, v)
      else if (elem.isPacked && elem.isStaticLen) && v.elems.length ≠ len / elem.staticFldSize then
        .err (.invalidLength, v)
      else .ok n v) hloop
    (fun n v h => by
      rw [h] at hloop
      split_ifs
      · exact fun he => absurd he (by simp)
      · exact fun he => absurd he (by simp)
      · exact hloop)
  cases c with
  | set o => exact hcleared
  | map o => exact hcleared
  | vec buf =>
    simp only [readElems]
    split_ifs
    · exact hstatic
    · exact hcleared
  | fixed n array =>
    simp only [readElems]
    split_ifs
    · exact hstatic
    · have heach := listOf_bounded (readEach_bounded elem hread true (u.elemsOf n) hm)
      apply bounded_then
        (k := fun k v => if elem.isPacked && k ≠ len then .err (.invalidLength, v) else .ok k v)
        heach
      intro k v h
      rw [h] at heach
      split_ifs
      · exact fun he => absurd he (by simp)
      · exact heach

theorem repeatedRead_bounded (elem : Fld) (c : Container) {read : Reader}
    (hread : Reader.Bounded m read) (hp : read.Progress) :
    Reader.Bounded m (repeatedRead m elem c read) := by
  intro mem lim hm u
  unfold repeatedRead
  split_ifs with hpacked
  · apply bounded_andThen (readVarintUint_primitive _ hm)
    intro k len _ hk
    split_ifs with hlen hst
    · exact fun he => absurd he (by simp)
    · exact fun he => absurd he (by simp)
    · have hregion : len ≤ (m.region (mem.drop k) len).length :=
        length_region (by rw [List.length_drop]; omega)
      have hr := (bounded_advance (readElems_bounded elem c hread hp hregion u) k).mono
        (Nat.le_of_not_lt hlen)
      generalize (readElems m elem c read (m.region (mem.drop k) len) len u).advance k = r at hr ⊢
      cases r with
      | ok n v => exact bounded_check (by simp) fun _ => hr
      | err e => exact hr
      | stop x => exact hr
  · exact bounded_check (by simp) fun _ => readElems_bounded elem c hread hp hm u

/-- What a case does, apart from the value it reads. -/
theorem Case.run_bounded {c : Case} (hread : Reader.Bounded m c.read) {mem : List UInt8}
    (hm : lim ≤ mem.length) (vs : List Val) (bits : Bits) : (c.run mem lim vs bits).Bounded m lim := by
  unfold Case.run
  have hr := hread hm (vs.getD c.idx .none)
  cases hq : c.read mem lim (vs.getD c.idx .none) <;> rw [hq] at hr <;> exact hr

/-- Skipping an unknown field fails with an error of its own. -/
def SkipBounded (m : Machine) (r : Scan Unit) (lim : ℕ) : Prop :=
  match r with
  | .ok n _ => n ≤ lim
  | .err e => e ≠ .tagMismatch
  | .stop x => m.Stops x

theorem skipBounded_of_primitive {r : Scan Unit} (h : r.Primitive lim) : SkipBounded m r lim := by
  cases r with
  | ok n a => exact h
  | err e => exact h
  | stop x => exact h.elim

theorem skipBytes_primitive (n : ℕ) : (skipBytes lim n).Primitive lim := by
  unfold skipBytes
  split_ifs with h
  · exact h
  · show PbErr.invalidLength ≠ .tagMismatch
    simp

theorem skipUnknown_bounded (tag : ℕ) {mem : List UInt8} (hm : lim ≤ mem.length) :
    SkipBounded m (skipUnknown m tag mem lim) lim := by
  unfold skipUnknown
  split
  · have h := readVarintUint_primitive 64 hm
    rw [skipVarint_eq]
    cases hr : readVarintUint 64 mem lim <;> rw [hr] at h
    · exact h
    · exact h
    · exact h.elim
  · exact skipBounded_of_primitive (skipBytes_primitive 8)
  · have h := readVarintUint_primitive 32 hm
    cases hr : readVarintUint 32 mem lim with
    | ok k len =>
      rw [hr] at h
      have hk : k ≤ lim := h
      have hs : (skipBytes (lim - k) len).Primitive (lim - k) := skipBytes_primitive len
      dsimp only
      cases hq : skipBytes (lim - k) len with
      | ok n a =>
        rw [hq] at hs
        have hn : n ≤ lim - k := hs
        show k + n ≤ lim
        omega
      | err e =>
        rw [hq] at hs
        exact hs
      | stop x =>
        rw [hq] at hs
        exact hs.elim
    | err e =>
      rw [hr] at h
      exact h
    | stop x =>
      rw [hr] at h
      exact h.elim
  · exact skipBounded_of_primitive (skipBytes_primitive 4)
  · unfold Machine.check
    split_ifs with ht
    · exact ⟨by simpa using ht, by simp⟩
    · exact Nat.zero_le lim

/-- How a turn over the fields of a message goes on: behind a field that was read, behind one that
failed with `tag_mismatch` and was skipped, or behind an unknown one. -/
theorem msgTurn_next {flds : List Fld} {cases : List Case} {s s' : MsgState}
    (h : msgTurn m flds cases s = .next s') :
    ∃ k tag n, 0 < s.lim ∧ readVarintUint 32 s.mem s.lim = .ok k tag ∧
      ((∃ c v, ownCase cases tag = some c ∧ (m.traps .refill && isFull flds s.bits c.idx) = false ∧
          c.read (s.mem.drop k) (s.lim - k) (s.vs.getD c.idx .none) = .ok n v ∧
          s' = s.move (k + n) (s.vs.set c.idx v) (s.bits.set c.idx)) ∨
        (∃ c v, ownCase cases tag = some c ∧ m.traps .swallow = false ∧
          c.read (s.mem.drop k) (s.lim - k) (s.vs.getD c.idx .none) = .err (.tagMismatch, v) ∧
          skipUnknown m tag (s.mem.drop k) (s.lim - k) = .ok n () ∧
          s' = s.move (k + n) (s.vs.set c.idx v) s.bits) ∨
        (ownCase cases tag = none ∧ isPadding cases.length tag = false ∧
          skipUnknown m tag (s.mem.drop k) (s.lim - k) = .ok n () ∧
          s' = s.move (k + n) s.vs s.bits)) := by
  unfold msgTurn at h
  split_ifs at h with hlim
  cases ht : readVarintUint 32 s.mem s.lim with
  | err e => simp [ht] at h
  | stop x => simp [ht] at h
  | ok k tag =>
    simp only [ht, readSubFlds_eq] at h
    cases hown : ownCase cases tag with
    | none =>
      by_cases hpad : isPadding cases.length tag = true
      · simp [hown, hpad, Machine.check] at h
      · cases hskip : skipUnknown m tag (s.mem.drop k) (s.lim - k) with
        | ok n a =>
          simp only [hown, hpad, Machine.check, hskip, Option.any_none, Option.isSome_none,
            Bool.and_false, Bool.false_eq_true, if_false, if_true, Loop.Turn.next.injEq] at h
          exact ⟨k, tag, n, by omega, rfl, Or.inr (Or.inr ⟨hown, by simpa using hpad, hskip, h.symm⟩)⟩
        | err e => simp [hown, hpad, Machine.check, hskip] at h
        | stop x => simp [hown, hpad, Machine.check, hskip] at h
    | some c =>
      simp only [hown, Option.any_some, Option.isSome_some, Machine.check, Bool.and_true] at h
      by_cases hfull : (m.traps .refill && isFull flds s.bits c.idx) = true
      · simp [hfull] at h
      rw [if_neg hfull] at h
      unfold Case.run at h
      cases hr : c.read (s.mem.drop k) (s.lim - k) (s.vs.getD c.idx .none) with
      | ok n v =>
        simp only [hr, Loop.Turn.next.injEq] at h
        exact ⟨k, tag, n, by omega, rfl, Or.inl ⟨c, v, hown, by simpa using hfull, hr, h.symm⟩⟩
      | stop x => simp only [hr, reduceCtorEq] at h
      | err q =>
        obtain ⟨e, v⟩ := q
        simp only [hr] at h
        split_ifs at h with he hs
        · cases hskip : skipUnknown m tag (s.mem.drop k) (s.lim - k) with
          | ok n a =>
            simp only [hskip, Loop.Turn.next.injEq] at h
            exact ⟨k, tag, n, by omega, rfl,
              Or.inr (Or.inl ⟨c, v, hown, by simpa using hs, by rw [hr, he], hskip, h.symm⟩)⟩
          | err e => simp [hskip] at h
          | stop x => simp [hskip] at h

theorem msgTurn_progress {flds : List Fld} {cases : List Case} (s s' : MsgState)
    (h : msgTurn m flds cases s = .next s') : s'.lim < s.lim := by
  obtain ⟨k, tag, n, hlim, ht, hs⟩ := msgTurn_next h
  have hk := (readVarintUint_le ht).1
  have hmove : ∀ vs bits, (s.move (k + n) vs bits).lim < s.lim := by
    intro vs bits
    show s.lim - (k + n) < s.lim
    omega
  rcases hs with ⟨c, v, -, -, -, rfl⟩ | ⟨c, v, -, -, -, -, rfl⟩ | ⟨-, -, -, rfl⟩
  · exact hmove _ _
  · exact hmove _ _
  · exact hmove _ _

/-- What is left of a turn once the field, if there is one, has failed with `tag_mismatch`. -/
theorem skipTurn_bounded {s : MsgState} {r : MsgRes} (hm : s.lim ≤ s.mem.length) (tag k : ℕ)
    (known : Bool) (vs : List Val) (hknown : known = true → m.Mismatches)
    (h : (match m.check .swallow known (skipUnknown m tag (s.mem.drop k) (s.lim - k)) with
      | .ok n _ => .next (s.move (k + n) vs s.bits)
      | .err e => .done (.err (e, vs))
      | .stop x => .done (.stop x)) = Loop.Turn.done r) : r.Bounded m lim := by
  have hskip := skipUnknown_bounded (m := m) tag (le_length_drop hm k)
  unfold Machine.check at h
  by_cases htrap : (m.traps .swallow && known) = true
  · rw [if_pos htrap] at h
    rw [Bool.and_eq_true] at htrap
    rw [← Loop.Turn.done.inj h]
    exact ⟨htrap.1, fun _ => hknown htrap.2⟩
  · rw [if_neg htrap] at h
    cases hq : skipUnknown m tag (s.mem.drop k) (s.lim - k) with
    | ok n a => simp [hq] at h
    | err e =>
      rw [hq] at hskip
      simp only [hq, Loop.Turn.done.injEq] at h
      rw [← h]
      exact fun he => absurd he hskip
    | stop x =>
      rw [hq] at hskip
      simp only [hq, Loop.Turn.done.injEq] at h
      rw [← h]
      exact hskip

theorem msgTurn_bounded {flds : List Fld} {cases : List Case}
    (hcs : ∀ c ∈ cases, Reader.Bounded m c.read) {s : MsgState} {r : MsgRes}
    (hm : s.lim ≤ s.mem.length) (hn : m.traps .overrun = true → s.n + s.lim = lim)
    (h : msgTurn m flds cases s = .done r) : r.Bounded m lim := by
  unfold msgTurn at h
  split_ifs at h with hlim
  · rw [← Loop.Turn.done.inj h]
    intro ht
    have := hn ht
    omega
  have hvar := readVarintUint_primitive 32 hm
  cases ht : readVarintUint 32 s.mem s.lim with
  | err e =>
    rw [ht] at hvar
    simp only [ht, Loop.Turn.done.injEq] at h
    rw [← h]
    exact fun he => absurd he hvar
  | stop x =>
    rw [ht] at hvar
    exact hvar.elim
  | ok k tag =>
    simp only [ht, readSubFlds_eq] at h
    cases hown : ownCase cases tag with
    | none =>
      by_cases hpad : isPadding cases.length tag = true
      · simp only [hown, hpad, Machine.check, Option.any_none, Bool.and_false, Bool.false_eq_true,
          if_false, if_true, Loop.Turn.done.injEq] at h
        rw [← h]
        trivial
      · simp only [hown, hpad, Machine.check, Option.any_none, Option.isSome_none, Bool.and_false,
          Bool.false_eq_true, if_false, if_true] at h
        refine skipTurn_bounded hm tag k false s.vs (by simp) ?_
        simp only [Machine.check, Bool.and_false, Bool.false_eq_true, if_false]
        exact h
    | some c =>
      have hrun := Case.run_bounded (hcs c (ownCase_eq_some hown).1) (le_length_drop hm k) s.vs s.bits
      simp only [hown, Option.any_some, Option.isSome_some] at h
      have hcheck : ((m.check .refill (isFull flds s.bits c.idx)
          (c.run (s.mem.drop k) (s.lim - k) s.vs s.bits)) : MsgRes).Bounded m (s.lim - k) :=
        bounded_check (by simp) fun _ => hrun
      generalize m.check .refill (isFull flds s.bits c.idx) _ = q at h hcheck
      cases q with
      | ok n a => simp at h
      | stop x =>
        simp only [Loop.Turn.done.injEq] at h
        rw [← h]
        exact hcheck
      | err q =>
        obtain ⟨e, vs⟩ := q
        dsimp only at h
        split_ifs at h with he
        · exact skipTurn_bounded hm tag k true vs (fun _ => hcheck he) h
        · rw [← Loop.Turn.done.inj h]
          exact hcheck

theorem msgTurn_next_bounded {flds : List Fld} {cases : List Case}
    (hcs : ∀ c ∈ cases, Reader.Bounded m c.read) {s s' : MsgState} (hm : s.lim ≤ s.mem.length)
    (hn : m.traps .overrun = true → s.n + s.lim = lim) (h : msgTurn m flds cases s = .next s') :
    s'.lim ≤ s'.mem.length ∧ (m.traps .overrun = true → s'.n + s'.lim = lim) := by
  obtain ⟨k, tag, n, -, ht, hs⟩ := msgTurn_next h
  have hk := (readVarintUint_le ht).2.1
  have hmove : (m.traps .overrun = true → n ≤ s.lim - k) → ∀ vs bits,
      (s.move (k + n) vs bits).lim ≤ (s.move (k + n) vs bits).mem.length ∧
        (m.traps .overrun = true →
          (s.move (k + n) vs bits).n + (s.move (k + n) vs bits).lim = lim) := by
    intro hle vs bits
    refine ⟨le_length_drop hm (k + n), ?_⟩
    intro htrap
    have h1 := hn htrap
    have h2 := hle htrap
    show s.n + (k + n) + (s.lim - (k + n)) = lim
    omega
  have hskip : skipUnknown m tag (s.mem.drop k) (s.lim - k) = .ok n () → n ≤ s.lim - k := by
    intro hq
    have hb := skipUnknown_bounded (m := m) tag (le_length_drop hm k)
    rw [hq] at hb
    exact hb
  rcases hs with ⟨c, v, hown, -, hr, rfl⟩ | ⟨c, v, -, -, -, hq, rfl⟩ | ⟨-, -, hq, rfl⟩
  · have hb := hcs c (ownCase_eq_some hown).1 (le_length_drop hm k) (s.vs.getD c.idx .none)
    rw [hr] at hb
    exact hmove hb _ _
  · exact hmove (fun _ => hskip hq) _ _
  · exact hmove (fun _ => hskip hq) _ _

theorem examSubFlds_bounded (bits : Bits) (i : ℕ) (fs : List Fld) (vs : List Val) :
    (examSubFlds m bits i fs vs).Bounded m 0 := by
  induction fs generalizing i vs with
  | nil => exact fun _ => le_rfl
  | cons f fs ih =>
    unfold examSubFlds
    split_ifs
    · cases f.params.pCheck with
      | none => exact ih _ _
      | some c =>
        apply bounded_check (by simp)
        intro _
        cases c.validate vs with
        | none => exact ih _ _
        | some e =>
          apply bounded_check (by simp)
          intro ht he
          simp only [he, decide_true, Bool.and_true] at ht
          exact Or.inr ht
    · exact ih _ _
    · exact fun he => absurd he (by simp)

theorem readFields_bounded (skipLen : Bool) (flds : List Fld) {cases : List Case}
    (hcs : ∀ c ∈ cases, Reader.Bounded m c.read) {mem : List UInt8} (hm : lim ≤ mem.length)
    (vs : List Val) : (readFields m skipLen flds cases mem lim vs).Bounded m lim := by
  have hends : Loop.Ends (msgTurn m flds cases) ⟨mem, lim, 0, vs, fun _ => false⟩ _ :=
    ends_loop MsgState.lim msgTurn_progress le_rfl
  have hloop := hends.invariant
    (fun s => s.lim ≤ s.mem.length ∧ (m.traps .overrun = true → s.n + s.lim = lim))
    (fun r => r.Bounded m lim) ⟨hm, fun _ => Nat.zero_add lim⟩ ?_ ?_
  · unfold readFields
    generalize loop (msgTurn m flds cases) lim _ = r at hloop ⊢
    cases r with
    | ok n a =>
      apply bounded_check (by simp)
      intro _
      have hexam := examSubFlds_bounded (m := m) a.2 0 flds a.1
      cases hq : examSubFlds m a.2 0 flds a.1 with
      | ok k vs => exact hloop
      | err e =>
        rw [hq] at hexam
        exact hexam
      | stop x =>
        rw [hq] at hexam
        exact hexam
    | err e => exact hloop
    | stop x => exact hloop
  · intro s s' ⟨hmem, hn⟩ hs
    exact msgTurn_next_bounded hcs hmem hn hs
  · intro s r ⟨hmem, hn⟩ hs
    exact msgTurn_bounded hcs hmem hn hs

/-- The loop over the fields is left at the end of the region only. -/
theorem msgTurn_done_ok {flds : List Fld} {cases : List Case} {s : MsgState} {n : ℕ}
    {a : List Val × Bits} (h : msgTurn m flds cases s = .done (.ok n a)) :
    s.lim = 0 ∧ n = s.n ∧ a = (s.vs, s.bits) := by
  unfold msgTurn at h
  split_ifs at h with hlim
  · simp only [Loop.Turn.done.injEq, Res.ok.injEq] at h
    exact ⟨hlim, h.1.symm, h.2.symm⟩
  cases ht : readVarintUint 32 s.mem s.lim with
  | err e => simp [ht] at h
  | stop x => simp [ht] at h
  | ok k tag =>
    simp only [ht] at h
    generalize m.check .refill _ _ = q at h
    cases q with
    | ok n' a' => simp at h
    | stop x => simp at h
    | err q =>
      dsimp only at h
      split_ifs at h
      · generalize m.check .swallow _ _ = q' at h
        cases q' <;> simp at h
      · simp at h

theorem readFields_ends {skipLen : Bool} {flds : List Fld} {cases : List Case}
    (hcs : ∀ c ∈ cases, Reader.Bounded m c.read) (htrap : m.traps .overrun = true)
    {mem : List UInt8} (hm : lim ≤ mem.length) {vs vs' : List Val} {n : ℕ}
    (h : readFields m skipLen flds cases mem lim vs = .ok n vs') : n = lim := by
  have hends : Loop.Ends (msgTurn m flds cases) ⟨mem, lim, 0, vs, fun _ => false⟩ _ :=
    ends_loop MsgState.lim msgTurn_progress le_rfl
  have hloop := hends.invariant
    (fun s => s.lim ≤ s.mem.length ∧ (m.traps .overrun = true → s.n + s.lim = lim))
    (fun r => ∀ n a, r = .ok n a → n = lim) ⟨hm, fun _ => Nat.zero_add lim⟩ ?_ ?_
  · unfold readFields at h
    generalize loop (msgTurn m flds cases) lim _ = r at hloop h
    cases r with
    | ok k a =>
      obtain ⟨-, hexam⟩ := check_eq_ok h
      cases hq : examSubFlds m a.2 0 flds a.1 with
      | ok i vs =>
        simp only [hq, Res.ok.injEq] at hexam
        rw [← hexam.1]
        exact hloop k a rfl
      | err e => simp [hq] at hexam
      | stop x => simp [hq] at hexam
    | err e => nomatch h
    | stop x => nomatch h
  · intro s s' ⟨hmem, hn⟩ hs
    exact msgTurn_next_bounded hcs hmem hn hs
  · intro s r ⟨hmem, hn⟩ hs n a hr
    obtain ⟨hlim, rfl, -⟩ := msgTurn_done_ok (hr ▸ hs)
    have := hn htrap
    omega

theorem messageRead_bounded (skipLen : Bool) (p : Params) (flds : List Fld) {cases : List Case}
    (hcs : ∀ c ∈ cases, Reader.Bounded m c.read) :
    Reader.Bounded m (messageRead m skipLen p flds cases) := by
  intro mem lim hm u
  have hbody : ∀ {mem : List UInt8} {lim : ℕ}, lim ≤ mem.length → ∀ vs,
      (msgOf p (readFields m skipLen flds cases mem lim vs)).Bounded m lim := by
    intro mem lim hm vs
    have hr := readFields_bounded skipLen flds hcs hm vs
    cases hq : readFields m skipLen flds cases mem lim vs <;> rw [hq] at hr <;> exact hr
  unfold messageRead
  dsimp only
  by_cases hskip : skipLen = true
  · rw [if_pos hskip]
    exact hbody hm _
  · rw [if_neg hskip]
    apply bounded_andThen (readVarintUint_primitive _ hm)
    intro k len _ hk
    by_cases hlen : lim < k + len
    · rw [if_pos hlen]
      exact fun he => absurd he (by simp)
    · rw [if_neg hlen]
      have hregion : len ≤ (m.region (mem.drop k) len).length :=
        length_region (by rw [List.length_drop]; omega)
      exact (bounded_advance (hbody hregion _) k).mono (Nat.le_of_not_lt hlen)

theorem oneofRead_bounded {read : Reader} (h : Reader.Bounded m read) (mem : Fld) (I : ℕ) :
    Reader.Bounded m (oneofRead mem I read) := by
  intro bytes lim hm u
  unfold oneofRead
  dsimp only
  generalize (if u.active.1 = I + 1 then u.active.2 else mem.freshVal) = v
  have hr := h hm v
  cases hq : read bytes lim v <;> rw [hq] at hr <;> exact hr

/-- An element is at least a byte long. -/
theorem progress_of_isElement {f : Fld} (h : f.isElement = true) :
    Reader.Progress ((f.injectedFldRead m).headD fun _ _ _ => .stop .unreachable) := by
  intro mem lim u n v hr
  cases f with
  | varint id ty c p =>
    obtain ⟨n', t, ht, hk⟩ := andThen_eq_ok hr
    cases (check_eq_ok hk).2
    exact readVarint_pos ht
  | fixed id ty c p =>
    change fixedRead ty c p mem lim u = _ at hr
    unfold fixedRead at hr
    split_ifs at hr
    cases hl : load ty.size mem with
    | none => simp [hl] at hr
    | some bs =>
      simp only [hl, Res.ok.injEq] at hr
      rw [← hr.1]
      cases ty <;> decide
  | bytes id b p =>
    obtain ⟨k, len, ht, hk⟩ := andThen_eq_ok hr
    have hpos := (readVarintUint_le ht).1
    dsimp only at hk
    by_cases hfit : b.accepts len = true
    · rw [if_pos hfit] at hk
      have hload := (check_eq_ok hk).2
      cases hl : load len (mem.drop k) with
      | none => simp [hl] at hload
      | some bs =>
        simp only [hl, Res.ok.injEq] at hload
        omega
    · rw [if_neg hfit] at hk
      nomatch hk
  | message id p flds =>
    change messageRead m false p flds _ mem lim u = _ at hr
    unfold messageRead at hr
    dsimp only at hr
    rw [if_neg (by simp)] at hr
    obtain ⟨k, len, ht, hk⟩ := andThen_eq_ok hr
    have hpos := (readVarintUint_le ht).1
    by_cases hlen : lim < k + len
    · rw [if_pos hlen] at hk
      nomatch hk
    · rw [if_neg hlen] at hk
      obtain ⟨n', -, rfl⟩ := advance_eq_ok hk
      omega
  | repeated => simp [Fld.isElement] at h
  | oneof => simp [Fld.isElement] at h

theorem headD_bounded {rs : List Reader} (h : ∀ r ∈ rs, Reader.Bounded m r) :
    Reader.Bounded m (rs.headD fun _ _ _ => .stop .unreachable) := by
  cases rs with
  | nil => exact fun _ _ _ _ => trivial
  | cons r rs => exact h r (by simp)

theorem oneofReads_bounded {fs : List Fld}
    (h : ∀ f ∈ fs, ∀ r ∈ f.injectedFldRead m, Reader.Bounded m r) (I : ℕ) :
    ∀ r ∈ oneofReads I fs (Fld.injectedFldReads m fs), Reader.Bounded m r := by
  induction fs generalizing I with
  | nil => simp [oneofReads]
  | cons f fs ih =>
    intro r hr
    simp only [Fld.injectedFldReads, oneofReads, List.mem_cons] at hr
    rcases hr with rfl | hr
    · exact oneofRead_bounded (headD_bounded (h f (by simp))) f I
    · exact ih (fun g hg => h g (by simp [hg])) (I + 1) r hr

/-- A case belongs to the field at its index. -/
theorem mem_casesFrom {i : ℕ} {fs : List Fld} {c : Case}
    (hc : c ∈ casesFrom i fs (Fld.injectedFldReads m fs)) :
    ∃ j f g, fs[j]? = some f ∧ c.idx = i + j ∧ c.tag = g.tag ∧
      (g, c.read) ∈ f.injectedFlds.zip (f.injectedFldRead m) := by
  induction fs generalizing i with
  | nil => simp [casesFrom] at hc
  | cons f fs ih =>
    simp only [Fld.injectedFldReads, casesFrom, List.mem_append, List.mem_map, Prod.exists] at hc
    rcases hc with ⟨g, r, hgr, rfl⟩ | hc
    · exact ⟨0, f, g, rfl, rfl, rfl, hgr⟩
    · obtain ⟨j, f', g, hj, hidx, hg⟩ := ih hc
      exact ⟨j + 1, f', g, hj, by omega, hg⟩

theorem casesOf_bounded {fs : List Fld}
    (h : ∀ f ∈ fs, ∀ r ∈ f.injectedFldRead m, Reader.Bounded m r) :
    ∀ c ∈ casesOf m fs, Reader.Bounded m c.read := by
  intro c hc
  obtain ⟨j, f, g, hj, -, -, hg⟩ := mem_casesFrom hc
  exact h f (List.mem_of_getElem? hj) _ (List.of_mem_zip hg).2

/-- Every field is read within bounds. -/
theorem injectedFldRead_bounded (f : Fld) (hf : f.wf = true) :
    ∀ r ∈ f.injectedFldRead m, Reader.Bounded m r := by
  induction f using Fld.ind with
  | varint id ty c p => simpa [Fld.injectedFldRead] using varintRead_bounded ty c p
  | fixed id ty c p => simpa [Fld.injectedFldRead] using fixedRead_bounded ty c p
  | bytes id b p => simpa [Fld.injectedFldRead] using bytesRead_bounded b p
  | message id p flds ih =>
    have hcs := casesOf_bounded fun f hf' => ih f hf' (Fld.wf_message hf f hf')
    intro r hr
    obtain rfl : r = messageRead m false p flds (casesOf m flds) := by
      simpa [Fld.injectedFldRead, casesOf] using hr
    exact messageRead_bounded false p flds hcs
  | repeated elem c p ih =>
    obtain ⟨hwf, he, -⟩ := Fld.wf_repeated hf
    have hread := headD_bounded (ih hwf)
    simpa [Fld.injectedFldRead] using repeatedRead_bounded elem c hread (progress_of_isElement he)
  | oneof p mems ih =>
    obtain ⟨hwf, -⟩ := Fld.wf_oneof hf
    exact oneofReads_bounded (fun f hf' => ih f hf' (hwf f hf')) 0

namespace Schema

theorem casesOf_bounded (s : Schema) : ∀ c ∈ casesOf m s.flds, Reader.Bounded m c.read :=
  Jkl.Pb.casesOf_bounded fun f hf => injectedFldRead_bounded f (s.wf_flds f hf)

/-- A read of a message ends within its bounds, unless a bytes field overruns them, and stops only
where the machine stops it. -/
theorem read_bounded (s : Schema) (skipLen : Bool) {mem : List UInt8} (hm : lim ≤ mem.length)
    (d : Val) :
    (∀ n v, s.read m skipLen mem lim d = .ok n v → m.traps .overrun = true → n ≤ lim) ∧
      ∀ x, s.read m skipLen mem lim d = .stop x → m.Stops x := by
  have hr := messageRead_bounded skipLen .null s.flds (s.casesOf_bounded (m := m)) hm d
  unfold Schema.read
  cases hq : messageRead m skipLen .null s.flds (casesOf m s.flds) mem lim d with
  | ok n v =>
    rw [hq] at hr
    cases s.check with
    | none =>
      refine ⟨fun n' v' h => ?_, by simp⟩
      cases h
      exact hr
    | some c =>
      dsimp only
      cases c.validate v.members with
      | none =>
        refine ⟨fun n' v' h => ?_, by simp⟩
        cases h
        exact hr
      | some e => simp
  | err e => simp
  | stop x =>
    rw [hq] at hr
    refine ⟨by simp, fun x' h => ?_⟩
    cases h
    exact hr

theorem fullRead_stops (s : Schema) (skipLen : Bool) (b : List UInt8) (d : Val) {x : Stop}
    (h : s.fullRead m skipLen b d = .stop x) : m.Stops x := by
  unfold Schema.fullRead at h
  have hr := (s.read_bounded (m := m) skipLen (le_refl b.length) d).2
  cases hq : s.read m skipLen b b.length d with
  | ok n v =>
    simp only [hq] at h
    split_ifs at h
  | err e => simp [hq] at h
  | stop x' =>
    simp only [hq] at h
    cases h
    exact hr x hq

end Schema
end Jkl.Pb
