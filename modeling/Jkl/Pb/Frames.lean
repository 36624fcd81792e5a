import Jkl.Pb.Bounds
import Jkl.Pb.Records

/-! What a read takes of its region. In memory that ends with the region, on a machine that stops
at an overrun and at a bool that is cut short, that is one payload. -/
namespace Jkl.Pb
open Base128

/-- A machine on which nothing behind a region is looked at. -/
structure Machine.Regional (m : Machine) : Prop where
  segmented : m.segmented = true
  overrun : m.traps .overrun = true

/-- The machine of this analysis. -/
structure Machine.Strict (m : Machine) : Prop extends m.Regional where
  longBool : m.traps .longBool = true
  loneTag : m.traps .loneTag = true
  wireType : m.traps .wireType = true

/-- Whatever is read has the form `form`. -/
def Framed (read : Reader) (form : List UInt8 → Prop) : Prop :=
  ∀ ⦃w u n v⦄, read w w.length u = .ok n v → ∃ p x, w = p ++ x ∧ p.length = n ∧ form p

theorem Framed.mono {read : Reader} {form form' : List UInt8 → Prop} (h : Framed read form)
    (hf : ∀ p, form p → form' p) : Framed read form' := by
  intro w u n v hr
  obtain ⟨p, x, hw, hn, hp⟩ := h hr
  exact ⟨p, x, hw, hn, hf p hp⟩

variable {m : Machine}

theorem numeral_mono {bits bits' : ℕ} {p : List UInt8} (h : Numeral bits p) (hle : bits ≤ bits') :
    Numeral bits' p := by
  obtain ⟨hp, hlen, hval⟩ := h
  refine ⟨hp, hlen.trans ?_, hval.trans_le (Nat.pow_le_pow_right (by omega) hle)⟩
  unfold maxVarintWireSize
  omega

theorem readVarint_framed {zigzag : Bool} {c : CInt} {w : List UInt8} {n : ℕ} {t : ℤ}
    (h : readVarint zigzag c w w.length = .ok n t)
    (hbool : c = .bool → w.head?.any (fun b => 0x80 ≤ b) = false) :
    ∃ p x, w = p ++ x ∧ p.length = n ∧ Numeral 64 p := by
  unfold readVarint at h
  by_cases hc : c = .bool
  · rw [if_pos hc] at h
    cases w with
    | nil => simp at h
    | cons b rest =>
      have hb : b.toNat < 128 := by
        have hb := hbool hc
        simp only [List.head?_cons, Option.any_some, decide_eq_false_iff_not] at hb
        exact Nat.lt_of_not_le fun hle => hb (UInt8.le_iff_toNat_le.mpr hle)
      simp only [List.length_cons, Nat.zero_lt_succ, if_true, Res.ok.injEq] at h
      refine ⟨[b], rest, rfl, h.1, ?_, ?_, ?_⟩
      · simp [Complete, hb]
      · simp [maxVarintWireSize]
      · simp only [value]
        omega
  · rw [if_neg hc] at h
    cases hr : readVarintUint (varintUintBits zigzag c) w w.length with
    | ok k u =>
      obtain ⟨p, rest, rfl, hp, hlen, rfl, rfl⟩ := readVarintUint_eq_ok.mp hr
      simp only [hr, Res.ok.injEq] at h
      exact ⟨p, rest, rfl, h.1, numeral_mono hp (varintUintBits_le zigzag c)⟩
    | err e => simp [hr] at h
    | stop x => simp [hr] at h

theorem varintRead_framed (hm : m.Strict) (ty : VarintTy) (c : CInt) (p : Params) :
    Framed (varintRead m ty c p) (Numeral 64) := by
  intro w u n v h
  obtain ⟨k, t, ht, hk⟩ := andThen_eq_ok h
  obtain ⟨hlong, hval⟩ := check_eq_ok hk
  rw [hm.longBool, Bool.true_and] at hlong
  have hbool : ty.tar = .bool → w.head?.any (fun b => 0x80 ≤ b) = false := by
    intro hb
    simpa [hb] using hlong
  cases hval
  exact readVarint_framed ht hbool

theorem load_append {p x : List UInt8} : load p.length (p ++ x) = some p := by
  rw [load, if_pos (by simp), List.take_left]

theorem fixedRead_framed (ty : FixedTy) (c : CInt) (p : Params) :
    Framed (fixedRead ty c p) (fun q => q.length = ty.size) := by
  intro w u n v h
  unfold fixedRead at h
  split_ifs at h with hl
  rw [load_isSome hl] at h
  have hlen : (w.take ty.size).length = ty.size := by
    rw [List.length_take]
    omega
  cases h
  exact ⟨w.take ty.size, w.drop ty.size, by simp, hlen, hlen⟩

/-- A reader of a length and as many bytes, which are all that it looks at. -/
theorem delimited_framed {read : Reader} {P : List UInt8 → Prop}
    {k : ℕ → ℕ → List UInt8 → ℕ → Val → Rd}
    (hread : ∀ mem lim u, read mem lim u =
      (readVarintUint 32 mem lim).andThen u fun n len => k n len mem lim u)
    (hk : ∀ q body x u n v, k q.length body.length (q ++ body ++ x) (q ++ body ++ x).length u = .ok n v →
      n = q.length + body.length ∧ P body)
    (hover : ∀ n len mem u n' v, k n len mem mem.length u = .ok n' v → n + len ≤ mem.length) :
    Framed read (Delimited P) := by
  intro w u n v h
  rw [hread] at h
  obtain ⟨i, len, ht, h⟩ := andThen_eq_ok h
  have hle := hover _ _ _ _ _ _ h
  obtain ⟨q, rest, rfl, hq, -, rfl, rfl⟩ := readVarintUint_eq_ok.mp ht
  obtain ⟨body, x, rfl, hlen⟩ : ∃ body x, rest = body ++ x ∧ body.length = value q := by
    refine ⟨rest.take (value q), rest.drop (value q), by simp, ?_⟩
    rw [List.length_append] at hle
    rw [List.length_take]
    omega
  rw [← List.append_assoc, ← hlen] at h
  obtain ⟨rfl, hP⟩ := hk _ _ _ _ _ _ h
  exact ⟨q ++ body, x, by simp, by simp, q, body, rfl, hq, hlen.symm, hP⟩

theorem bytesRead_framed (hm : m.Strict) (b : Buf) (p : Params) :
    Framed (bytesRead m b p) (Delimited fun _ => True) := by
  apply delimited_framed (fun mem lim u => rfl)
  · intro q body x u n v h
    have hload : load body.length ((q ++ body ++ x).drop q.length) = some body := by
      rw [List.append_assoc, List.drop_left, load_append]
    dsimp only at h
    by_cases hfit : b.accepts body.length = true
    · rw [if_pos hfit, hload] at h
      cases (check_eq_ok h).2
      exact ⟨rfl, trivial⟩
    · rw [if_neg hfit] at h
      cases h
  · intro k len mem u n v h
    dsimp only at h
    by_cases hfit : b.accepts len = true
    · rw [if_pos hfit] at h
      have hover := (check_eq_ok h).1
      simpa [hm.overrun] using hover
    · rw [if_neg hfit] at h
      cases h

/-- The bytes of a region of a confined machine. -/
theorem Machine.Regional.region (hm : m.Regional) (q body x : List UInt8) :
    m.region ((q ++ body ++ x).drop q.length) body.length = body := by
  rw [Machine.region, if_pos hm.segmented, List.append_assoc, List.drop_left, List.take_left]

/-- A region that is read to its end. -/
theorem region_framed (hm : m.Strict) {read : Reader} {P : List UInt8 → Prop} (e : PbErr)
    (bad : ℕ → Bool) (k : ℕ → List UInt8 → ℕ → Val → Rd)
    (hread : ∀ mem lim u, read mem lim u =
      (readVarintUint 32 mem lim).andThen u fun n len =>
        if lim < n + len then .err (e, u)
        else if bad len then .err (.invalidLength, u)
        else k n (m.region (mem.drop n) len) len u)
    (hk : ∀ i body u n v, bad body.length = false → k i body body.length u = .ok n v →
      n = i + body.length ∧ P body) : Framed read (Delimited P) := by
  apply delimited_framed hread
  · intro q body x u n v h
    have hle : ¬(q ++ body ++ x).length < q.length + body.length := by
      simp only [List.length_append]
      omega
    rw [if_neg hle] at h
    split_ifs at h with hbad
    rw [hm.region] at h
    exact hk _ _ _ _ _ (by simpa using hbad) h
  · intro n len mem u n' v h
    by_contra hlen
    rw [if_pos (by omega)] at h
    nomatch h

/-- The fields of a message that is accepted. -/
def Accepts (m : Machine) (skipLen : Bool) (flds : List Fld) (cases : List Case)
    (body : List UInt8) : Prop :=
  ∃ vs vs', readFields m skipLen flds cases body body.length vs = .ok body.length vs'

theorem messageRead_framed (hm : m.Strict) (p : Params) (flds : List Fld) {cases : List Case}
    (hcs : ∀ c ∈ cases, Reader.Bounded m c.read) :
    Framed (messageRead m false p flds cases) (Delimited (Accepts m false flds cases)) := by
  apply region_framed hm .msgIncomplete (fun _ => false) (fun n mem len u => Res.advance n
    (msgOf p (readFields m false flds cases mem len (if p.pOptional && !u.isSome then Fld.fresh flds
      else (p.constVal u).membersOf flds.length))))
  · intro mem lim u
    unfold messageRead
    rfl
  · intro i body u n v _ h
    obtain ⟨n', hbody, rfl⟩ := advance_eq_ok h
    generalize (if p.pOptional && !u.isSome then Fld.fresh flds
      else (p.constVal u).membersOf flds.length) = vs at hbody
    cases hr : readFields m false flds cases body body.length vs with
    | ok k vs' =>
      have hend := readFields_ends hcs hm.overrun le_rfl hr
      simp only [hr, msgOf, Res.ok.injEq] at hbody
      refine ⟨by omega, vs, vs', ?_⟩
      rw [hr, hend]
    | err e => simp [hr, msgOf] at hbody
    | stop x => simp [hr, msgOf] at hbody

/-- A reader whose values all have one size. -/
def ReadsExactly (read : Reader) (size : ℕ) : Prop :=
  ∀ ⦃mem lim u n v⦄, read mem lim u = .ok n v → n = size

theorem readsExactly_of_static {elem : Fld} (hp : elem.isPacked = true)
    (hs : elem.isStaticLen = true) :
    ReadsExactly ((elem.injectedFldRead m).headD fun _ _ _ => .stop .unreachable)
      elem.staticFldSize := by
  intro mem lim u n v h
  cases elem with
  | varint id ty c p =>
    have hty : ty.tar = .bool := by
      simp [Fld.isStaticLen] at hs
      exact hs.2
    obtain ⟨k, t, ht, hk⟩ := andThen_eq_ok h
    cases (check_eq_ok hk).2
    unfold readVarint at ht
    rw [if_pos hty] at ht
    split_ifs at ht
    cases mem with
    | nil => simp at ht
    | cons b mem =>
      simp only [Res.ok.injEq] at ht
      simp [Fld.staticFldSize, Fld.wireSize, hs, hp, tagWireSize, ← ht.1]
  | fixed id ty c p =>
    change fixedRead ty c p mem lim u = _ at h
    unfold fixedRead at h
    split_ifs at h
    cases hl : load ty.size mem with
    | none => simp [hl] at h
    | some bs =>
      simp only [hl, Res.ok.injEq] at h
      simp [Fld.staticFldSize, Fld.wireSize, hs, hp, tagWireSize, h.1]
  | _ => simp [Fld.isPacked, Fld.wireType] at hp

theorem readEach_cons_ok {elem : Fld} {read : Reader} {first : Bool} {e : Val} {es vs : List Val}
    {mem : List UInt8} {lim n : ℕ} (h : readEach m elem read first (e :: es) mem lim = .ok n vs) :
    ∃ k n₁ v n₂ ws, examTag elem first mem lim = some k ∧
      read (mem.drop k) (lim - k) e = .ok n₁ v ∧
      readEach m elem read false es (mem.drop (k + n₁)) (lim - (k + n₁)) = .ok n₂ ws ∧
      n = k + n₁ + n₂ ∧ vs = v :: ws := by
  unfold readEach at h
  cases hk : examTag elem first mem lim with
  | none =>
    rw [hk] at h
    cases (check_eq_ok h).2
  | some k =>
    simp only [hk] at h
    cases hr : read (mem.drop k) (lim - k) e with
    | err q => simp only [hr, reduceCtorEq] at h
    | stop x => simp only [hr, reduceCtorEq] at h
    | ok n₁ v =>
      simp only [hr] at h
      cases hq : readEach m elem read false es (mem.drop (k + n₁)) (lim - (k + n₁)) with
      | err q => simp only [hq, reduceCtorEq] at h
      | stop x => simp only [hq, reduceCtorEq] at h
      | ok n₂ ws =>
        simp only [hq, Res.ok.injEq] at h
        exact ⟨k, n₁, v, n₂, ws, rfl, hr, hq, h.1.symm, h.2.symm⟩

theorem readEach_packed_exact {elem : Fld} (hp : elem.isPacked = true) {read : Reader} {size : ℕ}
    (hread : ReadsExactly read size) {first : Bool} {es vs : List Val} {mem : List UInt8} {lim n : ℕ}
    (h : readEach m elem read first es mem lim = .ok n vs) : n = es.length * size := by
  induction es generalizing first mem lim n vs with
  | nil =>
    cases h
    simp
  | cons e es ih =>
    obtain ⟨k, n₁, v, n₂, ws, hk, hr, hrest, rfl, rfl⟩ := readEach_cons_ok h
    have hzero : k = 0 := by
      simpa [examTag, hp] using hk.symm
    rw [ih hrest, hread hr, hzero, List.length_cons]
    ring

theorem listOf_eq_ok {q : Res (PbErr × List Val) (List Val)} {n : ℕ} {v : Val}
    (h : listOf q = .ok n v) : ∃ vs, q = .ok n vs ∧ v = .list vs := by
  cases q with
  | ok k vs =>
    cases h
    exact ⟨vs, rfl, rfl⟩
  | err e => nomatch h
  | stop x => nomatch h

/-- The size of what is read was compared with the length. -/
theorem eq_of_checked {r : Rd} {elem : Fld} (hp : elem.isPacked = true) {len n : ℕ} {v : Val}
    (h : (match r with
      | .ok n v =>
        if elem.isPacked && n ≠ len then .err (.invalidLength, v)
        else if (elem.isPacked && elem.isStaticLen) &&
            v.elems.length ≠ len / elem.staticFldSize then .err (.invalidLength, v)
        else .ok n v
      | r => r : Rd) = .ok n v) : n = len := by
  cases r with
  | ok k w =>
    dsimp only at h
    split_ifs at h with hk
    cases h
    simpa [hp] using hk
  | err e => cases h
  | stop x => cases h

theorem readElems_packed_exact {elem : Fld} (hp : elem.isPacked = true) {c : Container}
    {mem : List UInt8} {len n : ℕ} {u v : Val}
    (hdvd : (elem.isStaticLen && len % elem.staticFldSize ≠ 0) = false)
    (h : readElems m elem c ((elem.injectedFldRead m).headD fun _ _ _ => .stop .unreachable) mem len u =
      .ok n v) : n = len := by
  have hstatic : ∀ u, elem.isStaticLen = true →
      readStatic m elem c ((elem.injectedFldRead m).headD fun _ _ _ => .stop .unreachable) mem len u =
        .ok n v → n = len := by
    intro u hs hr
    have hdvd : len % elem.staticFldSize = 0 := by simpa [hs] using hdvd
    have hinto : ∀ es : List Val, es.length = len / elem.staticFldSize →
        readOver m elem c ((elem.injectedFldRead m).headD fun _ _ _ => .stop .unreachable) mem len
          es = .ok n v → n = len := by
      intro es hes hr
      unfold readOver at hr
      split_ifs at hr
      · cases hl : load len mem with
        | none => simp [hl] at hr
        | some bs =>
          simp only [hl, Res.ok.injEq] at hr
          exact hr.1.symm
      · obtain ⟨vs, hvs, -⟩ := listOf_eq_ok hr
        rw [readEach_packed_exact hp (readsExactly_of_static hp hs) hvs, hes]
        exact Nat.div_mul_cancel (Nat.dvd_of_mod_eq_zero hdvd)
    rw [readStatic_eq] at hr
    cases c with
    | fixed k array =>
      dsimp only at hr
      by_cases hcnt : len / elem.staticFldSize = k
      · rw [if_pos hcnt] at hr
        exact hinto (u.elemsOf k) (by simp [Val.elemsOf, hcnt]) hr
      · rw [if_neg hcnt] at hr
        cases hr
    | _ => exact hinto _ (by simp) hr
  cases c with
  | set o => exact eq_of_checked hp h
  | map o => exact eq_of_checked hp h
  | vec buf =>
    simp only [readElems] at h
    by_cases hs : elem.isStaticLen = true
    · rw [if_pos (by simp [hp, hs])] at h
      exact hstatic _ hs h
    · rw [if_neg (by simp [hs])] at h
      exact eq_of_checked hp h
  | fixed k array =>
    simp only [readElems] at h
    by_cases hs : elem.isStaticLen = true
    · rw [if_pos (by simp [hp, hs])] at h
      exact hstatic _ hs h
    · rw [if_neg (by simp [hs])] at h
      generalize listOf _ = r at h
      cases r with
      | ok i w =>
        dsimp only at h
        split_ifs at h with hi
        cases h
        simpa [hp] using hi
      | err e => cases h
      | stop x => cases h

/-- What is read of a packed field behind its length, with the assertion at the end. -/
def packedBody (m : Machine) (elem : Fld) (c : Container) (read : Reader) (k : ℕ)
    (mem : List UInt8) (len : ℕ) (u : Val) : Rd :=
  let r := (readElems m elem c read mem len u).advance k
  match r with
  | .ok n _ => m.check .packedEnd (n ≠ k + len) r
  | r => r

theorem packedRead_framed (hm : m.Strict) {elem : Fld} (hp : elem.isPacked = true) (c : Container) :
    Framed (repeatedRead m elem c ((elem.injectedFldRead m).headD fun _ _ _ => .stop .unreachable))
      (Delimited fun _ => True) := by
  apply region_framed hm .repeatedIncomplete
    (fun len => elem.isStaticLen && len % elem.staticFldSize ≠ 0)
    (packedBody m elem c ((elem.injectedFldRead m).headD fun _ _ _ => .stop .unreachable))
  · intro mem lim u
    unfold repeatedRead
    exact (if_pos hp).trans rfl
  · intro i body u n v hdvd h
    dsimp only [packedBody] at h
    generalize hr : (readElems m elem c _ body body.length u).advance i = r at h
    cases r with
    | err e => cases h
    | stop x => cases h
    | ok k w =>
      cases (check_eq_ok h).2
      obtain ⟨n', hbody, rfl⟩ := advance_eq_ok hr
      rw [readElems_packed_exact hp hdvd hbody]
      exact ⟨rfl, trivial⟩

end Jkl.Pb
