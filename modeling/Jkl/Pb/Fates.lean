import Jkl.Pb.Blocks
import Jkl.Pb.VarintWords

/-! What becomes of a field of the schema by its own bytes. A turn of the loop over the fields takes
it, or skips it after `tag_mismatch`, or is the last, and apart from two kinds of fields that does
not depend on what stands behind the field or behind its run. -/
namespace Jkl.Pb
open Base128

/-- What a turn of the loop over the fields makes of the read of a field. -/
inductive Fate (α : Type) where
  | takes (n : ℕ) (a : α)
  | skips (a : α)
  | ends

def Res.fate {α : Type} : Res (PbErr × α) α → Fate α
  | .ok n a => .takes n a
  | .err (.tagMismatch, a) => .skips a
  | _ => .ends

namespace Fate

variable {α β : Type}

/-- The same fate `k` bytes further on. -/
def shift (k : ℕ) : Fate α → Fate α
  | takes n a => takes (k + n) a
  | skips a => skips a
  | ends => ends

def map (f : α → β) : Fate α → Fate β
  | takes n a => takes n (f a)
  | skips a => skips (f a)
  | ends => ends

/-- If bytes are taken, their number is as `P` says. -/
def Reaches (P : ℕ → Prop) : Fate α → Prop
  | takes n _ => P n
  | _ => True

variable {F : Fate α} {P Q : ℕ → Prop}

theorem Reaches.shift {k : ℕ} (h : F.Reaches P) (hPQ : ∀ n, P n → Q (k + n)) :
    (F.shift k).Reaches Q := by
  cases F with
  | takes n a => exact hPQ n h
  | _ => trivial

theorem Reaches.mono (h : F.Reaches P) (hPQ : ∀ n, P n → Q n) : F.Reaches Q := by
  cases F with
  | takes n a => exact hPQ n h
  | _ => trivial

theorem Reaches.map (h : F.Reaches P) (f : α → β) : (F.map f).Reaches P := by
  cases F with
  | takes n a => exact h
  | _ => trivial

@[simp] theorem shift_zero (F : Fate α) : F.shift 0 = F := by
  cases F <;> simp [shift]

@[simp] theorem shift_shift (F : Fate α) (j k : ℕ) : (F.shift k).shift j = F.shift (j + k) := by
  cases F <;> simp [shift, Nat.add_assoc]

end Fate

theorem fate_err {α : Type} {e : PbErr} {a : α} (he : e ≠ .tagMismatch) :
    (Res.err (e, a) : Res (PbErr × α) α).fate = .ends := by
  cases e <;> first | rfl | exact absurd rfl he

theorem fate_eq_takes {α : Type} {r : Res (PbErr × α) α} {n : ℕ} {a : α}
    (h : r.fate = .takes n a) : r = .ok n a := by
  cases r with
  | ok k b =>
    cases h
    rfl
  | err e =>
    obtain ⟨e, b⟩ := e
    cases e <;> nomatch h
  | stop x => nomatch h

theorem fate_eq_skips {α : Type} {r : Res (PbErr × α) α} {a : α} (h : r.fate = .skips a) :
    r = .err (.tagMismatch, a) := by
  cases r with
  | ok k b => nomatch h
  | err e =>
    obtain ⟨e, b⟩ := e
    cases e with
    | tagMismatch =>
      cases h
      rfl
    | _ => nomatch h
  | stop x => nomatch h

theorem fate_eq_ends {α : Type} {r : Res (PbErr × α) α} (h : r.fate = .ends) :
    (∃ e a, e ≠ .tagMismatch ∧ r = .err (e, a)) ∨ ∃ x, r = .stop x := by
  cases r with
  | ok k b => nomatch h
  | err e =>
    obtain ⟨e, b⟩ := e
    refine Or.inl ⟨e, b, ?_, rfl⟩
    rintro rfl
    nomatch h
  | stop x => exact Or.inr ⟨x, rfl⟩

theorem fate_within (r : Rd) (f : Val → Val) : (r.within f).fate = r.fate.map f := by
  cases r with
  | err e =>
    obtain ⟨e, v⟩ := e
    cases e <;> rfl
  | _ => rfl

namespace Fld

/-- The read of the field ends before its payload does: a bool of more than one byte, or a range of
no elements. -/
def CutsShort : Fld → List UInt8 → Prop
  | varint _ ty _ _, q => ty.tar = .bool ∧ q.length ≠ 1
  | repeated elem (.fixed 0 _) _, _ => elem.isPacked = false
  | _, _ => False

instance : (f : Fld) → (q : List UInt8) → Decidable (f.CutsShort q)
  | varint .., _ => inferInstanceAs (Decidable (_ ∧ _))
  | repeated _ (.fixed 0 _) _, _ => inferInstanceAs (Decidable (_ = _))
  | repeated _ (.fixed (_ + 1) _) _, _ | repeated _ (.vec _) _, _ | repeated _ (.set _) _, _
  | repeated _ (.map _) _, _ | fixed .., _ | bytes .., _ | message .., _ | oneof .., _ =>
    inferInstanceAs (Decidable False)

end Fld

section Varints

variable {q x : List UInt8} {lim : ℕ}

/-- A number of the type's width is read as `read_varint` reads it. -/
theorem readVarint_takes {zigzag : Bool} {c : CInt} (hz : c = .bool → zigzag = false)
    (hq : if c = .bool then q.length = 1 else Numeral (varintUintBits zigzag c) q)
    (hform : Numeral 64 q) (hlim : q.length ≤ lim) :
    readVarint zigzag c (q ++ x) lim = .ok q.length (varintVal zigzag c (value q)) := by
  unfold readVarint varintVal
  by_cases hc : c = .bool
  · rw [if_pos hc] at hq ⊢
    obtain ⟨b, rfl⟩ := List.length_eq_one_iff.mp hq
    have hb : value [b] = b.toNat := by
      have hlt : b.toNat < 128 := by simpa [Complete] using hform.1
      simp only [value]
      omega
    rw [if_pos (Nat.lt_of_lt_of_le Nat.zero_lt_one hlim), hz hc, hb]
    rfl
  · rw [if_neg hc] at hq ⊢
    rw [readVarintUint_append hq hlim]

/-- A number that is too large for the type. -/
theorem readVarintUint_refuses {bits : ℕ} (x : List UInt8) (lim : ℕ) (hq : Complete q)
    (hbits : ¬Numeral bits q) :
    (∀ k u, readVarintUint bits (q ++ x) lim ≠ .ok k u) ∧
      readVarintUint bits (q ++ x) lim ≠ .err .tagMismatch := by
  constructor
  · intro k u h
    obtain ⟨p, rest, heq, hp, -⟩ := readVarintUint_eq_ok.mp h
    obtain ⟨rfl, -⟩ := hq.append_inj hp.1 heq
    exact hbits hp
  · intro h
    unfold readVarintUint at h
    split_ifs at h
    · cases readVarintFast_err h
    · cases readVarintSlow_err h

theorem zigzag_of_bool {ty : VarintTy} (h : ty.tar = .bool) : ty.zigzag = false := by
  cases ty with
  | bool => rfl
  | _ => cases h

end Varints

/-- The read makes the same of `p` whatever stands behind it, and takes all of it or nothing. -/
def Settles (read : Reader) (u : Val) (p : List UInt8) : Prop :=
  ∃ F : Fate Val, F.Reaches (· = p.length) ∧ ∀ y, (read (p ++ y) (p ++ y).length u).fate = F

section Singles

variable {m : Machine} {p : List UInt8} {u : Val}

/-- The read of a region that is cut off behind it. -/
theorem settles_of_eq {read : Reader} (r : Rd) (hr : ∀ n v, r = .ok n v → n = p.length)
    (h : ∀ y, read (p ++ y) (p ++ y).length u = r) : Settles read u p := by
  refine ⟨r.fate, ?_, fun y => by rw [h]⟩
  cases r with
  | ok k w => exact hr k w rfl
  | err e =>
    obtain ⟨e, w⟩ := e
    cases e <;> trivial
  | stop s => trivial

theorem varintRead_settles {ty : VarintTy} (c : CInt) (par : Params) (hp : Numeral 64 p)
    (hcut : ¬(ty.tar = .bool ∧ p.length ≠ 1)) : Settles (varintRead m ty c par) u p := by
  have hread : ∀ y, varintRead m ty c par (p ++ y) (p ++ y).length u =
      (readVarint ty.zigzag ty.tar (p ++ y) (p ++ y).length).andThen u fun n t =>
        .ok n (par.wrap (.int (c.cast t))) := by
    intro y
    have hlong : (decide (ty.tar = .bool) && (p ++ y).head?.any fun b => 0x80 ≤ b) = false := by
      by_cases hb : ty.tar = .bool
      · obtain ⟨b, rfl⟩ := List.length_eq_one_iff.mp (by simpa [hb] using hcut : p.length = 1)
        have hlt : b.toNat < 128 := by simpa [Complete] using hp.1
        have hle : ¬(0x80 : UInt8) ≤ b := fun h => by
          have := UInt8.le_iff_toNat_le.mp h
          simp at this
          omega
        simpa [hb] using hle
      · simp [hb]
    unfold varintRead
    rw [hlong]
    simp only [Machine.check, Bool.and_false, Bool.false_eq_true, if_false]
  by_cases hq : if ty.tar = .bool then p.length = 1 else Numeral (varintUintBits ty.zigzag ty.tar) p
  · refine settles_of_eq (.ok p.length (par.wrap (.int (c.cast (varintVal ty.zigzag ty.tar
      (value p)))))) (fun n v h => ?_) fun y => ?_
    · cases h
      rfl
    · rw [hread, readVarint_takes zigzag_of_bool hq hp (by simp)]
      rfl
  · have htar : ty.tar ≠ .bool := by
      intro hb
      simp [hb] at hq hcut
      exact hq hcut
    rw [if_neg htar] at hq
    refine ⟨.ends, trivial, fun y => ?_⟩
    obtain ⟨hok, herr⟩ := readVarintUint_refuses y (p ++ y).length hp.1 hq
    rw [hread]
    unfold readVarint
    rw [if_neg htar]
    cases hr : readVarintUint (varintUintBits ty.zigzag ty.tar) (p ++ y) (p ++ y).length with
    | ok k n => exact absurd hr (hok k n)
    | err e => exact fate_err fun he => herr (he ▸ hr)
    | stop s => rfl

theorem fixedRead_settles {ty : FixedTy} (c : CInt) (par : Params) (hp : p.length = ty.size) :
    Settles (fixedRead ty c par) u p := by
  refine settles_of_eq (.ok p.length (par.wrap (.int (c.cast (loadLe ty.tar p)))))
    (fun n v h => ?_) fun y => ?_
  · cases h
    rfl
  · unfold fixedRead
    rw [if_pos (by simp [hp]), ← hp, load_append]

theorem bytesRead_settles (b : Buf) (par : Params) (hp : Delimited (fun _ => True) p) :
    Settles (bytesRead m b par) u p := by
  obtain ⟨k, body, rfl, hk, hlen, -⟩ := hp
  have hread : ∀ y, bytesRead m b par (k ++ body ++ y) (k ++ body ++ y).length u =
      if b.accepts body.length then
        .ok (k.length + body.length)
          (if par.pOptional && !b.plain then .some (.bytes body) else .bytes body)
      else .err (.invalidLength, if par.pOptional && !b.plain && !u.isSome then
        .some (.bytes (List.replicate (b.fixed.getD 0) 0)) else u) := by
    intro y
    have hover : decide ((k ++ body ++ y).length < k.length + body.length) = false := by
      simp only [List.length_append, decide_eq_false_iff_not]
      omega
    unfold bytesRead
    rw [List.append_assoc, readVarintUint_append hk (by simp), hlen, ← List.append_assoc]
    dsimp only [Res.andThen]
    rw [hover, Machine.check, Bool.and_false, List.append_assoc, List.drop_left, load_append]
    rfl
  refine settles_of_eq _ (fun n v h => ?_) hread
  by_cases hacc : b.accepts body.length = true
  · rw [if_pos hacc] at h
    cases h
    rw [List.length_append]
  · rw [if_neg hacc] at h
    cases h

theorem messageRead_settles (hm : m.Regional) (par : Params) {flds : List Fld} {cases : List Case}
    (hcs : ∀ c ∈ cases, Reader.Bounded m c.read) (hp : Delimited (fun _ => True) p) :
    Settles (messageRead m false par flds cases) u p := by
  obtain ⟨k, body, rfl, hk, hlen, -⟩ := hp
  have hread : ∀ y, messageRead m false par flds cases (k ++ body ++ y) (k ++ body ++ y).length u =
      (msgOf par (readFields m false flds cases body body.length
        (if par.pOptional && !u.isSome then Fld.fresh flds
          else (par.constVal u).membersOf flds.length))).advance k.length := by
    intro y
    have hle : ¬(k ++ body ++ y).length < k.length + body.length := by
      simp only [List.length_append]
      omega
    have hregion := hm.region k body y
    rw [messageRead, if_neg Bool.false_ne_true, List.append_assoc,
      readVarintUint_append hk (by simp), hlen, ← List.append_assoc]
    dsimp only [Res.andThen]
    rw [if_neg hle, hregion]
    rfl
  refine settles_of_eq _ (fun n v h => ?_) hread
  obtain ⟨n', hbody, rfl⟩ := advance_eq_ok h
  revert hbody
  generalize (if par.pOptional && !u.isSome then Fld.fresh flds
    else (par.constVal u).membersOf flds.length) = vs
  intro hbody
  cases hr : readFields m false flds cases body body.length vs with
  | ok i ws =>
    have hend := readFields_ends hcs hm.overrun le_rfl hr
    simp only [hr, msgOf, Res.ok.injEq] at hbody
    rw [List.length_append, ← hbody.1, hend]
  | err e => simp [hr, msgOf] at hbody
  | stop x => simp [hr, msgOf] at hbody

theorem packedRead_settles (hm : m.Regional) {elem : Fld} (hpk : elem.isPacked = true)
    (c : Container) (hp : Delimited (fun _ => True) p) :
    Settles (repeatedRead m elem c (elem.reader m)) u p := by
  obtain ⟨k, body, rfl, hk, hlen, -⟩ := hp
  have hread : ∀ y, repeatedRead m elem c (elem.reader m) (k ++ body ++ y)
      (k ++ body ++ y).length u =
      if elem.isStaticLen && body.length % elem.staticFldSize ≠ 0 then .err (.invalidLength, u)
      else packedBody m elem c (elem.reader m) k.length body body.length u := by
    intro y
    have hle : ¬(k ++ body ++ y).length < k.length + body.length := by
      simp only [List.length_append]
      omega
    have hregion := hm.region k body y
    unfold repeatedRead
    rw [if_pos hpk, List.append_assoc, readVarintUint_append hk (by simp), hlen,
      ← List.append_assoc]
    dsimp only [Res.andThen]
    rw [if_neg hle, hregion]
    rfl
  refine settles_of_eq _ (fun n v h => ?_) hread
  split_ifs at h with hdvd
  dsimp only [packedBody] at h
  generalize hr : (readElems m elem c (elem.reader m) body body.length u).advance k.length = r at h
  cases r with
  | err e => cases h
  | stop x => cases h
  | ok i w =>
    cases (check_eq_ok h).2
    obtain ⟨n', hbody, rfl⟩ := advance_eq_ok hr
    rw [readElems_packed_exact hpk (by simpa using hdvd) hbody, List.length_append]

theorem oneofRead_settles {read : Reader} {mem : Fld} {I : ℕ}
    (h : ∀ u, Settles read u p) : Settles (oneofRead mem I read) u p := by
  obtain ⟨F, hF, hread⟩ := h (if u.active.1 = I + 1 then u.active.2 else mem.freshVal)
  refine ⟨F.map (.oneof (I + 1)), hF.map _, fun y => ?_⟩
  unfold oneofRead
  rw [fate_within, hread]

/-- A field that is neither repeated nor a oneof. -/
theorem single_settles (hm : m.Regional) {f : Fld} (hf : f.wf = true) (hs : f.isSingle = true)
    (hform : PayloadForm (f.tag % 8) p) (hcut : ¬f.CutsShort p) : Settles (f.reader m) u p := by
  rw [Fld.tag, mkTag_mod] at hform
  cases f with
  | varint id ty c par => exact varintRead_settles c par hform hcut
  | fixed id ty c par =>
    apply fixedRead_settles
    cases ty <;> exact hform
  | bytes id b par => exact bytesRead_settles b par hform
  | message id par flds =>
    have hcs : ∀ c ∈ casesOf m flds, Reader.Bounded m c.read := casesOf_bounded fun f hf' =>
      injectedFldRead_bounded f (Fld.wf_message hf f hf')
    exact messageRead_settles hm par hcs hform
  | repeated elem c par => simp [Fld.isSingle] at hs
  | oneof par mems => simp [Fld.isSingle] at hs

end Singles

section Runs

variable {m : Machine} {elem : Fld} {c : Container} {read : Reader}

/-- `x` does not go on with a run of this tag. -/
def EndsRun (tag : ℕ) (x : List UInt8) : Prop := startsWithVarintBytes tag x x.length = none

/-- The payloads of a run with the tags before them, of which the first may be gone. -/
def runOf (elem : Fld) : (first : Bool) → List (List UInt8) → List UInt8
  | _, [] => []
  | first, q :: qs => elemTag elem first ++ q ++ runOf elem false qs

theorem runOf_cons_append {first : Bool} {q y : List UInt8} {qs : List (List UInt8)} :
    runOf elem first (q :: qs) ++ y = elemTag elem first ++ q ++ (runOf elem false qs ++ y) := by
  rw [runOf, List.append_assoc]

theorem length_runOf_cons {first : Bool} {q : List UInt8} {qs : List (List UInt8)} :
    (runOf elem first (q :: qs)).length =
      (elemTag elem first).length + q.length + (runOf elem false qs).length := by
  rw [runOf, List.length_append, List.length_append]

/-- Behind the tag of an element. -/
theorem elem_at (elem : Fld) (first : Bool) (y : List UInt8) (qs : List (List UInt8))
    {q : List UInt8} (hq : q ≠ []) :
    examTag elem first (runOf elem first (q :: qs) ++ y) (runOf elem first (q :: qs) ++ y).length =
        some (elemTag elem first).length ∧
      (runOf elem first (q :: qs) ++ y).drop (elemTag elem first).length =
        q ++ (runOf elem false qs ++ y) ∧
      (runOf elem first (q :: qs) ++ y).length - (elemTag elem first).length =
        (q ++ (runOf elem false qs ++ y)).length := by
  rw [runOf_cons_append]
  refine ⟨examTag_elemTag hq (by simp), ?_, ?_⟩
  · rw [List.append_assoc, List.drop_left]
  · rw [List.append_assoc, List.length_append, Nat.add_sub_cancel_left]

/-- The turn at an element is the read of its payload. -/
theorem elemTurn_at {q : List UInt8} (hq : q ≠ []) (qs : List (List UInt8)) (acc : List Val) (n : ℕ)
    (y : List UInt8) :
    elemTurn elem c read ⟨runOf elem acc.isEmpty (q :: qs) ++ y,
        (runOf elem acc.isEmpty (q :: qs) ++ y).length, n, acc⟩ =
      match read (q ++ (runOf elem false qs ++ y)) (q ++ (runOf elem false qs ++ y)).length
        elem.freshVal with
      | .ok k v => .next ⟨(q ++ (runOf elem false qs ++ y)).drop k,
          (q ++ (runOf elem false qs ++ y)).length - k,
          n + ((elemTag elem acc.isEmpty).length + k), c.add acc v⟩
      | .err (e, _) => .done (.err (e, .list acc))
      | .stop x => .done (.stop x) := by
  obtain ⟨hexam, hdrop, hlen⟩ := elem_at elem acc.isEmpty y qs hq
  have hpos : (runOf elem acc.isEmpty (q :: qs) ++ y).length ≠ 0 := by
    have := List.length_pos_of_ne_nil hq
    rw [runOf_cons_append]
    simp only [List.length_append]
    omega
  unfold elemTurn
  dsimp only
  rw [if_neg hpos, hexam]
  dsimp only
  rw [hdrop, hlen]
  cases read (q ++ (runOf elem false qs ++ y)) (q ++ (runOf elem false qs ++ y)).length
      elem.freshVal with
  | ok k v =>
    dsimp only
    rw [← List.drop_drop, hdrop, Nat.sub_add_eq, hlen]
  | err e => rfl
  | stop x => rfl

/-- The loop over a run, into a container that was cleared. -/
theorem loop_settles (hread : ∀ q, PayloadForm (elem.tag % 8) q → Settles read elem.freshVal q)
    (hp : elem.isPacked = false) {qs : List (List UInt8)}
    (hqs : ∀ q ∈ qs, PayloadForm (elem.tag % 8) q) {acc : List Val} (hne : acc ≠ [] ∨ qs ≠ []) :
    ∃ F : Fate Val, F.Reaches (· = (runOf elem acc.isEmpty qs).length) ∧
      ∀ n y, EndsRun elem.tag y → ∃ res, Loop.Ends (elemTurn elem c read)
        ⟨runOf elem acc.isEmpty qs ++ y, (runOf elem acc.isEmpty qs ++ y).length, n, acc⟩ res ∧
          res.fate = F.shift n := by
  induction qs generalizing acc with
  | nil =>
    have hacc : acc ≠ [] := hne.resolve_right fun h => h rfl
    refine ⟨.takes 0 (.list acc), rfl, fun n y hy => ⟨.ok n (.list acc), ?_, rfl⟩⟩
    exact .done (elemTurn_stop hp hacc hy)
  | cons q qs ih =>
    have hq : q ≠ [] := (hqs q List.mem_cons_self).ne_nil
    obtain ⟨G, hG, hgo⟩ := hread q (hqs q List.mem_cons_self)
    cases G with
    | takes k v =>
      obtain rfl : k = q.length := hG
      have hacc : (c.add acc v).isEmpty = false := by
        simpa using add_ne_nil acc v
      obtain ⟨F, hF, hends⟩ := ih (fun q' hq' => hqs q' (List.mem_cons_of_mem _ hq'))
        (Or.inl (add_ne_nil acc v))
      rw [hacc] at hF hends
      refine ⟨F.shift ((elemTag elem acc.isEmpty).length + q.length),
        hF.shift fun j hj => ?_, fun n y hy => ?_⟩
      · rw [length_runOf_cons, hj]
      · obtain ⟨res, hres, hfate⟩ := hends (n + ((elemTag elem acc.isEmpty).length + q.length)) y hy
        refine ⟨res, .next ?_ hres, ?_⟩
        · rw [elemTurn_at hq, fate_eq_takes (hgo _)]
          dsimp only
          rw [List.drop_left, @List.length_append _ q, Nat.add_sub_cancel_left]
        · rw [hfate, Fate.shift_shift]
    | skips v =>
      refine ⟨.skips (.list acc), trivial, fun n y hy =>
        ⟨.err (.tagMismatch, .list acc), .done ?_, rfl⟩⟩
      rw [elemTurn_at hq, fate_eq_skips (hgo _)]
    | ends =>
      refine ⟨.ends, trivial, fun n y hy => ?_⟩
      rcases fate_eq_ends (hgo (runOf elem false qs ++ y)) with ⟨e, a, he, hr⟩ | ⟨x, hr⟩
      · refine ⟨.err (e, .list acc), .done ?_, fate_err he⟩
        rw [elemTurn_at hq, hr]
      · refine ⟨.stop x, .done ?_, rfl⟩
        rw [elemTurn_at hq, hr]

/-- At an element of a range of fixed size its payload is read. -/
theorem readEach_at {first : Bool} {q : List UInt8} (hq : q ≠ []) (qs : List (List UInt8)) (e : Val)
    (es : List Val) (y : List UInt8) :
    readEach m elem read first (e :: es) (runOf elem first (q :: qs) ++ y)
        (runOf elem first (q :: qs) ++ y).length =
      match read (q ++ (runOf elem false qs ++ y)) (q ++ (runOf elem false qs ++ y)).length e with
      | .ok k v =>
        match readEach m elem read false es ((q ++ (runOf elem false qs ++ y)).drop k)
          ((q ++ (runOf elem false qs ++ y)).length - k) with
        | .ok n' vs => .ok ((elemTag elem first).length + k + n') (v :: vs)
        | .err (x, vs) => .err (x, v :: vs)
        | .stop x => .stop x
      | .err (x, v) => .err (x, v :: es)
      | .stop x => .stop x := by
  obtain ⟨hexam, hdrop, hlen⟩ := elem_at elem first y qs hq
  rw [readEach, hexam]
  dsimp only
  rw [hdrop, hlen]
  cases read (q ++ (runOf elem false qs ++ y)) (q ++ (runOf elem false qs ++ y)).length e with
  | ok k v =>
    dsimp only
    rw [← List.drop_drop, hdrop, Nat.sub_add_eq]
    exact hlen ▸ rfl
  | err e => rfl
  | stop x => rfl

/-- The elements of a run over those of a range of fixed size. -/
theorem readEach_settles
    (hread : ∀ u q, PayloadForm (elem.tag % 8) q → Settles read u q) (hp : elem.isPacked = false)
    {es : List Val} {qs : List (List UInt8)} (hqs : ∀ q ∈ qs, PayloadForm (elem.tag % 8) q)
    {first : Bool} (hne : first = true → qs ≠ []) :
    ∃ F : Fate (List Val),
      F.Reaches (fun n => ∃ j, n = (runOf elem first (qs.take j)).length ∧ (es ≠ [] → 0 < j)) ∧
      ∀ y, EndsRun elem.tag y → (readEach m elem read first es (runOf elem first qs ++ y)
        (runOf elem first qs ++ y).length).fate = F := by
  induction es generalizing qs first with
  | nil => exact ⟨.takes 0 [], ⟨0, rfl, fun h => absurd rfl h⟩, fun y hy => rfl⟩
  | cons e es ih =>
    cases qs with
    | nil =>
      have hfirst : first = false := by simpa using hne
      subst hfirst
      refine ⟨(m.check .shortRun true (.err (.tagMismatch, e :: es)) :
        Res (PbErr × List Val) (List Val)).fate, ?_, fun y hy => ?_⟩
      · rw [Machine.check]
        split_ifs <;> trivial
      · have hexam : examTag elem false y y.length = none := by
          simpa [examTag, hp, EndsRun] using hy
        rw [runOf, List.nil_append, readEach, hexam]
    | cons q qs =>
      have hq : q ≠ [] := (hqs q List.mem_cons_self).ne_nil
      obtain ⟨G, hG, hgo⟩ := hread e q (hqs q List.mem_cons_self)
      cases G with
      | takes k v =>
        obtain rfl : k = q.length := hG
        obtain ⟨F, hF, hrest⟩ := ih (fun q' hq' => hqs q' (List.mem_cons_of_mem _ hq'))
          (fun h : false = true => absurd h Bool.false_ne_true)
        refine ⟨(F.map (v :: ·)).shift ((elemTag elem first).length + q.length),
          (hF.map _).shift fun i hi => ?_, fun y hy => ?_⟩
        · obtain ⟨j, hj, -⟩ := hi
          exact ⟨j + 1, by rw [List.take_succ_cons, length_runOf_cons, hj], fun _ => j.succ_pos⟩
        · rw [readEach_at hq, fate_eq_takes (hgo _)]
          dsimp only
          rw [List.drop_left, @List.length_append _ q, Nat.add_sub_cancel_left, ← hrest y hy]
          cases readEach m elem read false es (runOf elem false qs ++ y)
              (runOf elem false qs ++ y).length with
          | ok i ws => rfl
          | err x =>
            obtain ⟨x, ws⟩ := x
            cases x <;> rfl
          | stop x => rfl
      | skips v =>
        refine ⟨.skips (v :: es), trivial, fun y hy => ?_⟩
        rw [readEach_at hq, fate_eq_skips (hgo _)]
        rfl
      | ends =>
        refine ⟨.ends, trivial, fun y hy => ?_⟩
        rcases fate_eq_ends (hgo (runOf elem false qs ++ y)) with ⟨x, a, hx, hr⟩ | ⟨x, hr⟩
        · rw [readEach_at hq, hr]
          exact fate_err hx
        · rw [readEach_at hq, hr]
          rfl

theorem fate_listOf (r : Res (PbErr × List Val) (List Val)) : (listOf r).fate = r.fate.map .list := by
  cases r with
  | err e =>
    obtain ⟨e, vs⟩ := e
    cases e <;> rfl
  | _ => rfl

/-- A run of an unpacked field, of which the first tag is gone. -/
theorem unpackedRead_settles (hread : ∀ u q, PayloadForm (elem.tag % 8) q → Settles read u q)
    (hprog : read.Progress) (hp : elem.isPacked = false)
    (hcut : ∀ array, c ≠ .fixed 0 array) {q : List UInt8} {qs : List (List UInt8)}
    (hqs : ∀ q' ∈ q :: qs, PayloadForm (elem.tag % 8) q') (u : Val) :
    ∃ F : Fate Val, F.Reaches (fun n => ∃ j, n = (runOf elem true (q :: qs.take j)).length) ∧
      ∀ y, EndsRun elem.tag y → (repeatedRead m elem c read (runOf elem true (q :: qs) ++ y)
        (runOf elem true (q :: qs) ++ y).length u).fate = F := by
  cases hc : c.isFixed with
  | false =>
    obtain ⟨F, hF, hends⟩ := loop_settles (c := c) (hread elem.freshVal) hp hqs
      (show ([] : List Val) ≠ [] ∨ q :: qs ≠ [] from Or.inr (by simp))
    refine ⟨F, hF.mono fun n hn => ⟨qs.length, ?_⟩, fun y hy => ?_⟩
    · rw [List.take_length]
      exact hn
    · obtain ⟨res, hres, hfate⟩ := hends 0 y hy
      have hpos : decide ((runOf elem true (q :: qs) ++ y).length = 0) = false := by
        have := List.length_pos_of_ne_nil (hqs q List.mem_cons_self).ne_nil
        rw [runOf_cons_append]
        simp only [List.length_append, decide_eq_false_iff_not]
        omega
      have hloop := loop_elemTurn hprog hres le_rfl
      simp only [List.isEmpty_nil] at hloop hfate
      rw [repeatedRead_cleared hp hc, hpos, Machine.check, Bool.and_false, hloop]
      exact hfate.trans F.shift_zero
  | true =>
    cases c with
    | fixed k array =>
      obtain ⟨F, hF, heach⟩ := @readEach_settles m elem read hread hp (u.elemsOf k) _ hqs
        true (by simp)
      have hk : k ≠ 0 := by
        rintro rfl
        exact hcut array rfl
      have hes : u.elemsOf k ≠ [] := by
        intro h
        have hlen := congrArg List.length h
        simp [Val.elemsOf] at hlen
        exact hk hlen
      refine ⟨F.map .list, (hF.mono fun n hn => ?_).map _, fun y hy => ?_⟩
      · obtain ⟨j, hj, hpos⟩ := hn
        obtain ⟨j, rfl⟩ := Nat.exists_eq_succ_of_ne_zero (hpos hes).ne'
        exact ⟨j, by simpa using hj⟩
      · have hlone : decide (k = 0) = false := by simpa using hk
        rw [repeatedRead_fixed hp, hlone, Machine.check, Bool.and_false, ← heach y hy]
        exact fate_listOf _
    | _ => simp [Container.isFixed] at hc

end Runs

section Cases

variable {m : Machine} {flds : List Fld}

/-- The record is of a field whose read ends before its payload does. -/
def CutShort (flds : List Fld) (r : Rec) : Prop :=
  ∃ f ∈ flds, ∃ g ∈ f.injectedFlds, g.tag = r.tag ∧ g.CutsShort r.payload

instance (r : Rec) : Decidable (CutShort flds r) := by
  unfold CutShort; infer_instance

/-- The records go on with a run of member `i`. -/
def GoesOn (flds : List Fld) (i : ℕ) (B : List Rec) : Prop :=
  ∀ r ∈ B, ∃ elem c p, flds[i]? = some (.repeated elem c p) ∧ elem.isPacked = false ∧
    r.tagBytes = varintBytes elem.tag

/-- `x` does not go on with a run of member `i`. -/
def EndsAt (flds : List Fld) (i : ℕ) (x : List UInt8) : Prop :=
  ∀ elem c p, flds[i]? = some (.repeated elem c p) → elem.isPacked = false → EndsRun elem.tag x

theorem runOf_payloads {elem : Fld} (hp : elem.isPacked = false) {B : List Rec}
    (hB : ∀ r ∈ B, r.tagBytes = varintBytes elem.tag) :
    runOf elem false (B.map Rec.payload) = Rec.join B := by
  induction B with
  | nil => rfl
  | cons r B ih =>
    have htag : elemTag elem false = r.tagBytes := by
      simp [elemTag, hp, hB r List.mem_cons_self]
    rw [List.map_cons, runOf, htag, ih fun r' hr' => hB r' (List.mem_cons_of_mem _ hr'),
      Rec.join_cons]
    rfl

/-- Nothing goes on with a field that is no run. -/
theorem GoesOn.eq_nil {i : ℕ} {B : List Rec} (hB : GoesOn flds i B)
    (h : ∀ elem c p, flds[i]? = some (.repeated elem c p) → elem.isPacked = true) : B = [] := by
  refine List.eq_nil_iff_forall_not_mem.mpr fun r hr => ?_
  obtain ⟨elem, c, p, hf, hp, -⟩ := hB r hr
  rw [h elem c p hf] at hp
  cases hp

/-- A read from the payload of a record on, with the records `B` that go on with a run, makes the same
of these whatever stands behind them that may. -/
def SettlesRun (read : Reader) (u : Val) (r : Rec) (B : List Rec) (may : List UInt8 → Prop) : Prop :=
  ∃ F : Fate Val, F.Reaches (fun n => ∃ j, n = (r.payload ++ Rec.join (B.take j)).length) ∧
    ∀ y, may y → (read (r.payload ++ Rec.join B ++ y)
      (r.payload ++ Rec.join B ++ y).length u).fate = F

theorem Settles.run {read : Reader} {u : Val} {r : Rec} {may : List UInt8 → Prop}
    (h : Settles read u r.payload) : SettlesRun read u r [] may := by
  obtain ⟨F, hF, hread⟩ := h
  refine ⟨F, hF.mono fun n hn => ⟨0, by simpa using hn⟩, fun y _ => ?_⟩
  simpa using hread y

theorem unpacked_settlesRun (hm : m.Regional) {elem : Fld} {c : Container} {p : Params}
    (hf : (Fld.repeated elem c p).wf = true) (hlt : elem.tag < 2 ^ 32) (hp : elem.isPacked = false)
    (hcut : ∀ array, c ≠ .fixed 0 array) {r : Rec} (hr : Delimited (fun _ => True) r.payload)
    {B : List Rec} (hB : ∀ r' ∈ B, r'.tagBytes = varintBytes elem.tag) (u : Val) :
    SettlesRun (repeatedRead m elem c (elem.reader m)) u r B (EndsRun elem.tag) := by
  obtain ⟨hwf, he, -⟩ := Fld.wf_repeated hf
  have hwire : elem.wireType = .lenDlm := by simpa [Fld.isPacked] using hp
  have hforms : ∀ q ∈ r.payload :: B.map Rec.payload, PayloadForm (elem.tag % 8) q := by
    intro q hq
    rcases List.mem_cons.mp hq with rfl | hq
    · rw [Fld.tag, mkTag_mod, hwire]
      exact hr
    · obtain ⟨r', hr', rfl⟩ := List.mem_map.mp hq
      have hr'form := r'.form
      rwa [hB r' hr', varintBytes_eq hlt, value_encode] at hr'form
  have hsettles : ∀ u q, PayloadForm (elem.tag % 8) q → Settles (elem.reader m) u q :=
    fun u q hq => single_settles hm hwf (isSingle_of_isElement he) hq (by
      cases elem <;> simp_all [Fld.CutsShort, Fld.isElement, Fld.isPacked, Fld.wireType])
  have hrun : ∀ B', (∀ r' ∈ B', r'.tagBytes = varintBytes elem.tag) →
      runOf elem true (r.payload :: B'.map Rec.payload) = r.payload ++ Rec.join B' := by
    intro B' hB'
    rw [runOf, runOf_payloads hp hB']
    simp [elemTag]
  obtain ⟨F, hF, hall⟩ := unpackedRead_settles (m := m) hsettles (progress_of_isElement he) hp hcut
    hforms u
  refine ⟨F, hF.mono fun n hn => ?_, fun y hy => ?_⟩
  · obtain ⟨i, hi⟩ := hn
    exact ⟨i, by rw [hi, ← List.map_take, hrun _ fun r' hr' => hB r' (List.mem_of_mem_take hr')]⟩
  · rw [← hrun B hB]
    exact hall y hy

/-- What the read of a field makes of its records does not depend on what stands behind them. -/
theorem read_settles (hm : m.Regional) (hflds : Compile flds) {c : Case}
    (hc : c ∈ casesOf m flds) {r : Rec} (htag : r.tag = c.tag) (hcut : ¬CutShort flds r)
    {B : List Rec} (hB : GoesOn flds c.idx B) (u : Val) :
    SettlesRun c.read u r B (EndsAt flds c.idx) := by
  obtain ⟨j, f, g, hj, hidx, hgtag, hg⟩ := mem_casesFrom hc
  obtain ⟨hwf, hid⟩ := hflds f (List.mem_of_getElem? hj)
  rw [Nat.zero_add] at hidx
  rw [← hidx] at hj
  have hform : PayloadForm (g.tag % 8) r.payload := by
    rw [← hgtag, ← htag]
    exact r.form
  have hgcut : ¬g.CutsShort r.payload := fun h =>
    hcut ⟨f, List.mem_of_getElem? hj, g, (List.of_mem_zip hg).1, by rw [htag, hgtag], h⟩
  have hone : (∀ elem c' p, f = .repeated elem c' p → elem.isPacked = true) →
      Settles c.read u r.payload → SettlesRun c.read u r B (EndsAt flds c.idx) := by
    intro hf hsettles
    obtain rfl := hB.eq_nil fun elem c' p h => hf elem c' p (Option.some.inj (hj.symm.trans h))
    exact hsettles.run
  have hsingle : f.isSingle = true → SettlesRun c.read u r B (EndsAt flds c.idx) := by
    intro hs
    rw [Fld.injectedFlds_single hs, Fld.injectedFldRead_single hs] at hg
    obtain ⟨rfl, hread⟩ : g = f ∧ c.read = f.reader m := by simpa using hg
    refine hone (fun elem c' p h => ?_) ?_
    · simp [h, Fld.isSingle] at hs
    · rw [hread]
      exact single_settles hm hwf hs hform hgcut
  cases f with
  | repeated elem c' p =>
    obtain ⟨rfl, hread⟩ : g = .repeated elem c' p ∧ c.read = repeatedRead m elem c' (elem.reader m) := by
      simpa [Fld.injectedFlds, Fld.injectedFldRead, Fld.reader] using hg
    have hdelim : Delimited (fun _ => True) r.payload := by
      rw [Fld.tag, mkTag_mod] at hform
      exact hform
    cases hp : elem.isPacked with
    | true =>
      refine hone (fun elem' c'' p' h => ?_) ?_
      · cases h
        exact hp
      · rw [hread]
        exact packedRead_settles hm hp c' hdelim
    | false =>
      have hlt : elem.tag < 2 ^ 32 :=
        mkTag_lt (hid (.repeated elem c' p) (by simp [Fld.injectedFlds])) elem.wireType
      have hbytes : ∀ r' ∈ B, r'.tagBytes = varintBytes elem.tag := by
        intro r' hr'
        obtain ⟨elem', c'', p', hf, -, hr⟩ := hB r' hr'
        cases hj.symm.trans hf
        exact hr
      have hfixed : ∀ array, c' ≠ .fixed 0 array := by
        rintro array rfl
        exact hgcut hp
      obtain ⟨F, hF, hall⟩ := unpacked_settlesRun hm hwf hlt hp hfixed hdelim hbytes u
      rw [hread]
      exact ⟨F, hF, fun y hy => hall y (hy elem c' p hj hp)⟩
  | oneof p mems =>
    obtain ⟨hmems, helem, -⟩ := Fld.wf_oneof hwf
    have hs : ∀ f ∈ mems, f.isSingle = true := fun f hf => isSingle_of_isElement (helem f hf)
    obtain ⟨hmem, J, hread⟩ := mem_oneofReads hs hg
    refine hone (fun _ _ _ h => by cases h) ?_
    rw [hread]
    exact oneofRead_settles fun u => single_settles hm (hmems g hmem) (hs g hmem) hform hgcut
  | _ => exact hsingle rfl

/-- Member `i` is marked as read if `b`. -/
def Bits.mark (bits : Bits) (i : ℕ) (b : Bool) : Bits := if b then bits.set i else bits

/-- The loop over the fields, entered at the records `rs`, ends with `r`. -/
def EndsOn (m : Machine) (flds : List Fld) (rs : List Rec) (n : ℕ) (vs : List Val) (bits : Bits)
    (r : MsgRes) : Prop :=
  Loop.Ends (msgTurn m flds (casesOf m flds)) ⟨Rec.join rs, (Rec.join rs).length, n, vs, bits⟩ r

/-- From any struct whose member `i` is `u` the turn at `r` goes on behind it and `j` of the records
that go on with its run, with `v` in the member, which is marked as read if `b`. -/
def Steps (m : Machine) (flds : List Fld) (r : Rec) (B : List Rec) (i : ℕ) (u : Val) (j : ℕ)
    (v : Val) (b : Bool) : Prop :=
  ∀ rest n vs bits, vs.getD i .none = u → EndsAt flds i (Rec.join rest) →
    msgTurn m flds (casesOf m flds)
        ⟨Rec.join (r :: (B ++ rest)), (Rec.join (r :: (B ++ rest))).length, n, vs, bits⟩ =
      .next ⟨Rec.join (B.drop j ++ rest), (Rec.join (B.drop j ++ rest)).length,
        n + (Rec.join (r :: B.take j)).length, vs.set i v, bits.mark i b⟩

/-- The turn at `r` is the last, and the read fails. -/
def Fails (m : Machine) (flds : List Fld) (r : Rec) (B : List Rec) (i : ℕ) (u : Val) : Prop :=
  ∀ rest n vs bits, vs.getD i .none = u → EndsAt flds i (Rec.join rest) →
    ∃ res, msgTurn m flds (casesOf m flds)
        ⟨Rec.join (r :: (B ++ rest)), (Rec.join (r :: (B ++ rest))).length, n, vs, bits⟩ =
      .done res ∧ ∀ k a, res ≠ .ok k a

/-- The turn at a field of the schema is the read of its payload, with the rest of its run. -/
theorem msgTurn_at (hrefill : m.traps .refill = false) (hswallow : m.traps .swallow = false)
    {c : Case} {r : Rec} (hown : ownCase (casesOf m flds) r.tag = some c) (B rest : List Rec) (n : ℕ)
    (vs : List Val) (bits : Bits) :
    msgTurn m flds (casesOf m flds)
        ⟨Rec.join (r :: (B ++ rest)), (Rec.join (r :: (B ++ rest))).length, n, vs, bits⟩ =
      match c.read (r.payload ++ Rec.join B ++ Rec.join rest)
        (r.payload ++ Rec.join B ++ Rec.join rest).length (vs.getD c.idx .none) with
      | .ok k v => .next ⟨(r.payload ++ Rec.join B ++ Rec.join rest).drop k,
          (r.payload ++ Rec.join B ++ Rec.join rest).length - k, n + (r.tagBytes.length + k),
          vs.set c.idx v, bits.set c.idx⟩
      | .stop x => .done (.stop x)
      | .err (e, v) =>
        if e = .tagMismatch then
          .next ⟨Rec.join B ++ Rec.join rest, (Rec.join B ++ Rec.join rest).length,
            n + (r.tagBytes.length + r.payload.length), vs.set c.idx v, bits⟩
        else .done (.err (e, vs.set c.idx v)) := by
  have hbytes : Rec.join (r :: (B ++ rest)) =
      r.tagBytes ++ r.payload ++ (Rec.join B ++ Rec.join rest) := by
    rw [Rec.join_cons, Rec.join_append]
    rfl
  have hown' : ownCase (casesOf m flds) (value r.tagBytes) = some c := hown
  have hlim : (r.tagBytes ++ r.payload ++ (Rec.join B ++ Rec.join rest)).length -
      r.tagBytes.length = (r.payload ++ Rec.join B ++ Rec.join rest).length := by
    simp only [List.append_assoc, List.length_append]
    omega
  have hskip : skipUnknown m (value r.tagBytes) (r.payload ++ (Rec.join B ++ Rec.join rest))
      (r.payload ++ Rec.join B ++ Rec.join rest).length = .ok r.payload.length () :=
    skipUnknown_of_form r.form (by simp)
  rw [hbytes, msgTurn_tag r.numeral (by simp), hlim, readSubFlds_eq, hown', hskip,
    ← List.append_assoc r.payload]
  simp only [Option.any_some, Machine.check, hrefill, hswallow, Bool.false_and,
    Bool.false_eq_true, if_false, Case.run]
  have hsub : ∀ k, (r.tagBytes ++ r.payload ++ (Rec.join B ++ Rec.join rest)).length -
      (r.tagBytes.length + k) = (r.payload ++ Rec.join B ++ Rec.join rest).length - k := by
    intro k
    rw [Nat.sub_add_eq, hlim]
  cases c.read (r.payload ++ Rec.join B ++ Rec.join rest)
      (r.payload ++ Rec.join B ++ Rec.join rest).length (vs.getD c.idx .none) with
  | ok k v =>
    dsimp only
    rw [hsub]
  | stop x => rfl
  | err e =>
    obtain ⟨e, v⟩ := e
    dsimp only
    by_cases he : e = .tagMismatch
    · rw [if_pos he, if_pos he, hsub, List.append_assoc, List.drop_left,
        @List.length_append _ r.payload, Nat.add_sub_cancel_left]
    · rw [if_neg he, if_neg he]

/-- The turn at a field of the schema whose read does not end before its payload. -/
theorem turn_settles (hm : m.Regional) (hflds : Compile flds) (hrefill : m.traps .refill = false)
    (hswallow : m.traps .swallow = false) {c : Case} {r : Rec}
    (hown : ownCase (casesOf m flds) r.tag = some c) (hcut : ¬CutShort flds r) {B : List Rec}
    (hB : GoesOn flds c.idx B) (u : Val) :
    (∃ j v b, Steps m flds r B c.idx u j v b) ∨ Fails m flds r B c.idx u := by
  obtain ⟨hc, htag⟩ := ownCase_eq_some hown
  obtain ⟨F, hF, hread⟩ := read_settles hm hflds hc htag.symm hcut hB u
  cases F with
  | takes k v =>
    obtain ⟨j, rfl⟩ := hF
    refine Or.inl ⟨j, v, true, fun rest n vs bits hu hx => ?_⟩
    have hsplit : r.payload ++ Rec.join B ++ Rec.join rest =
        (r.payload ++ Rec.join (B.take j)) ++ Rec.join (B.drop j ++ rest) := by
      have hB' : Rec.join B = Rec.join (B.take j) ++ Rec.join (B.drop j) := by
        rw [← Rec.join_append, List.take_append_drop]
      rw [hB', Rec.join_append]
      simp only [List.append_assoc]
    rw [msgTurn_at hrefill hswallow hown, hu, fate_eq_takes (hread _ hx)]
    dsimp only
    rw [hsplit, List.drop_left, @List.length_append _ (r.payload ++ Rec.join (B.take j)),
      Nat.add_sub_cancel_left, Rec.join_cons, Rec.bytes, List.append_assoc r.tagBytes,
      @List.length_append _ r.tagBytes]
    rfl
  | skips v =>
    refine Or.inl ⟨0, v, false, fun rest n vs bits hu hx => ?_⟩
    rw [msgTurn_at hrefill hswallow hown, hu, fate_eq_skips (hread _ hx)]
    simp [Rec.bytes, Bits.mark]
  | ends =>
    refine Or.inr fun rest n vs bits hu hx => ?_
    rcases fate_eq_ends (hread _ hx) with ⟨e, v, he, hr⟩ | ⟨x, hr⟩
    · refine ⟨.err (e, vs.set c.idx v), ?_, fun _ _ h => by cases h⟩
      rw [msgTurn_at hrefill hswallow hown, hu, hr]
      exact if_neg he
    · refine ⟨.stop x, ?_, fun _ _ h => by cases h⟩
      rw [msgTurn_at hrefill hswallow hown, hu, hr]

/-- The records at hand that go on with a run of member `i`. -/
theorem exists_run (flds : List Fld) (i : ℕ) (rs : List Rec) : ∃ B rest, rs = B ++ rest ∧ GoesOn flds i B ∧
    (∀ r ∈ rest.head?, ¬GoesOn flds i [r]) := by
  induction rs with
  | nil => exact ⟨[], [], rfl, nofun, nofun⟩
  | cons r rs ih =>
    by_cases hr : GoesOn flds i [r]
    · obtain ⟨B, rest, rfl, hB, hrest⟩ := ih
      refine ⟨r :: B, rest, rfl, fun r' hr' => ?_, hrest⟩
      rcases List.mem_cons.mp hr' with rfl | hr'
      · exact hr _ List.mem_cons_self
      · exact hB r' hr'
    · exact ⟨[], r :: rs, rfl, nofun, fun r' hr' => by cases hr'; exact hr⟩

theorem endsRun_nil (tag : ℕ) : EndsRun tag [] := by
  simp [EndsRun, startsWithVarintBytes]

theorem endsRun_cons {tag : ℕ} (htag : tag < 2 ^ 32) {r : Rec} {rs : List Rec} :
    EndsRun tag (Rec.join (r :: rs)) ↔ r.tagBytes ≠ varintBytes tag := by
  constructor
  · intro h hr
    have hbytes : Rec.join (r :: rs) = varintBytes tag ++ r.payload ++ Rec.join rs := by
      rw [Rec.join_cons, Rec.bytes, hr]
    have hstarts : startsWithVarintBytes tag (varintBytes tag ++ r.payload ++ Rec.join rs)
        (varintBytes tag ++ r.payload ++ Rec.join rs).length = some (varintBytes tag).length :=
      startsWith_varintBytes r.form.ne_nil (by simp)
    rw [← hbytes, h] at hstarts
    cases hstarts
  · intro hr
    cases hstarts : startsWithVarintBytes tag (Rec.join (r :: rs)) (Rec.join (r :: rs)).length with
    | none => exact hstarts
    | some k =>
      obtain ⟨x, hx, -, -⟩ := startsWith_eq_some hstarts
      have hcomplete : Complete (varintBytes tag) := by
        rw [varintBytes_eq htag]
        exact complete_encode tag
      rw [Rec.join_cons, Rec.bytes, List.append_assoc] at hx
      exact absurd (r.numeral.1.append_inj hcomplete hx).1 hr

theorem elem_tag_lt (hflds : Compile flds) {elem : Fld} {c : Container} {p : Params}
    (hf : .repeated elem c p ∈ flds) : elem.tag < 2 ^ 32 :=
  mkTag_lt ((hflds _ hf).2 (.repeated elem c p) (by simp [Fld.injectedFlds])) elem.wireType

/-- A run ends at a record that does not go on with it. -/
theorem endsAt_of_head (hflds : Compile flds) {i : ℕ} {rest : List Rec}
    (h : ∀ r ∈ rest.head?, ¬GoesOn flds i [r]) : EndsAt flds i (Rec.join rest) := by
  intro elem c p hf hp
  cases rest with
  | nil => exact endsRun_nil elem.tag
  | cons r rest =>
    refine (endsRun_cons (elem_tag_lt hflds (List.mem_of_getElem? hf))).mpr fun hr => h r rfl ?_
    intro r' hr'
    obtain rfl := List.mem_singleton.mp hr'
    exact ⟨elem, c, p, hf, hp, hr⟩

/-- What goes on with a run of a case has the tag of the case. -/
theorem GoesOn.tags (hflds : Compile flds) {c : Case} (hc : c ∈ casesOf m flds) {B : List Rec}
    (hB : GoesOn flds c.idx B) : ∀ r ∈ B, r.tag = c.tag := by
  intro r hr
  obtain ⟨elem, c', p, hf, hp, htag⟩ := hB r hr
  obtain ⟨j, f, g, hj, hidx, hg, hmem⟩ := mem_casesFrom hc
  rw [Nat.zero_add] at hidx
  rw [hidx, hj] at hf
  cases hf
  obtain rfl : g = .repeated elem c' p := by simpa [Fld.injectedFlds] using (List.of_mem_zip hmem).1
  have hwire : elem.wireType = .lenDlm := by simpa [Fld.isPacked] using hp
  rw [hg, Rec.tag, htag, varintBytes_eq (elem_tag_lt hflds (List.mem_of_getElem? hj)), value_encode]
  show mkTag elem.id elem.wireType = mkTag elem.id .lenDlm
  rw [hwire]

/-- The turn at a field of the schema in a run of the loop that goes well. -/
theorem steps_of_ends (hm : m.Regional) (hflds : Compile flds) (hrefill : m.traps .refill = false)
    (hswallow : m.traps .swallow = false) {c : Case} {r : Rec}
    (hown : ownCase (casesOf m flds) r.tag = some c) (hcut : ¬CutShort flds r) {rest : List Rec}
    {n k : ℕ} {vs : List Val} {bits : Bits} {a : List Val × Bits}
    (h : EndsOn m flds (r :: rest) n vs bits (.ok k a)) :
    ∃ B rest₀ j v b, rest = B ++ rest₀ ∧ GoesOn flds c.idx B ∧
      (∀ r' ∈ rest₀.head?, ¬GoesOn flds c.idx [r']) ∧
      Steps m flds r B c.idx (vs.getD c.idx .none) j v b ∧
      EndsOn m flds (B.drop j ++ rest₀) (n + (Rec.join (r :: B.take j)).length) (vs.set c.idx v)
        (bits.mark c.idx b) (.ok k a) := by
  obtain ⟨B, rest₀, rfl, hB, hhead⟩ := exists_run flds c.idx rest
  have hends := endsAt_of_head hflds hhead
  rcases turn_settles hm hflds hrefill hswallow hown hcut hB (vs.getD c.idx .none) with
    ⟨j, v, b, hstep⟩ | hfail
  · have hturn := hstep rest₀ n vs bits rfl hends
    exact ⟨B, rest₀, j, v, b, rfl, hB, hhead, hstep, (Loop.ends_iff_of_next hturn).mp h⟩
  · obtain ⟨res, hturn, hno⟩ := hfail rest₀ n vs bits rfl hends
    exact absurd ((Loop.ends_iff_of_done hturn).mp h) (hno k a)

end Cases

end Jkl.Pb
