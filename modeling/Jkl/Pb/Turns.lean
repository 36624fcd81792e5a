import Jkl.Pb.Bounds
import Jkl.Pb.Records

/-! The turns of the loops of a read on bytes whose form is known: a field of the schema, a field
that no case matches, an element of a run. -/
namespace Jkl.Pb
open Base128

namespace Fld

/-- What reads a field that is neither repeated nor a oneof. -/
def reader (m : Machine) (f : Fld) : Reader :=
  (f.injectedFldRead m).headD fun _ _ _ => .stop .unreachable

def isSingle : Fld → Bool
  | repeated .. | oneof .. => false
  | _ => true

theorem injectedFldRead_single {m : Machine} {f : Fld} (h : f.isSingle = true) :
    f.injectedFldRead m = [f.reader m] := by
  cases f with
  | repeated | oneof => simp [isSingle] at h
  | _ => simp [reader, injectedFldRead]

theorem injectedFlds_single {f : Fld} (h : f.isSingle = true) : f.injectedFlds = [f] := by
  cases f with
  | oneof => simp [isSingle] at h
  | _ => rfl

end Fld

variable {m : Machine} {lim n : ℕ}

/-- A complete field of any of the four wire types is skipped as a whole. -/
theorem skipUnknown_of_form {tag : ℕ} {p x : List UInt8} (h : PayloadForm (tag % 8) p)
    (hlim : p.length ≤ lim) : skipUnknown m tag (p ++ x) lim = .ok p.length () := by
  have hbytes : ∀ k, p.length = k → skipBytes lim k = .ok p.length () := by
    intro k hk
    rw [skipBytes, if_pos (by omega), hk]
  unfold skipUnknown
  generalize tag % 8 = wt at h ⊢
  unfold PayloadForm at h
  split at h
  · exact (skipVarint_eq (p ++ x) lim).trans (by rw [readVarintUint_append h hlim]; rfl)
  · exact hbytes 8 h
  · obtain ⟨q, body, rfl, hq, hlen, -⟩ := h
    have hle : q.length + body.length ≤ lim := by simpa using hlim
    have hskip : skipBytes (lim - q.length) body.length = .ok body.length () := by
      rw [skipBytes, if_pos (by omega)]
    rw [List.append_assoc, readVarintUint_append hq (by omega), hlen, List.length_append]
    dsimp only
    rw [hskip]
    rfl
  · exact hbytes 4 h
  · exact h.elim

section Message

variable {flds : List Fld} {cases : List Case} {q p x : List UInt8} {vs : List Val} {bits : Bits}

theorem msgTurn_end : msgTurn m flds cases ⟨x, 0, n, vs, bits⟩ = .done (.ok n (vs, bits)) := by
  simp [msgTurn]

/-- The turn after a tag, before what the tag is for. -/
theorem msgTurn_tag (hq : Numeral 32 q) (hlim : q.length + p.length ≤ lim) :
    msgTurn m flds cases ⟨q ++ p ++ x, lim, n, vs, bits⟩ =
      match m.check .refill ((ownCase cases (value q)).any fun c => isFull flds bits c.idx)
          (readSubFlds cases (value q) (p ++ x) (lim - q.length) vs bits) with
      | .ok k (vs, bits) =>
        .next ⟨(p ++ x).drop k, lim - (q.length + k), n + (q.length + k), vs, bits⟩
      | .stop s => .done (.stop s)
      | .err (e, vs) =>
        if e = .tagMismatch then
          match m.check .swallow (ownCase cases (value q)).isSome
              (skipUnknown m (value q) (p ++ x) (lim - q.length)) with
          | .ok k _ =>
            .next ⟨(p ++ x).drop k, lim - (q.length + k), n + (q.length + k), vs, bits⟩
          | .err e => .done (.err (e, vs))
          | .stop s => .done (.stop s)
        else .done (.err (e, vs)) := by
  have hpos := hq.1.length_pos
  have hmove : ∀ k vs' bits',
      MsgState.move ⟨q ++ (p ++ x), lim, n, vs, bits⟩ (q.length + k) vs' bits' =
      ⟨(p ++ x).drop k, lim - (q.length + k), n + (q.length + k), vs', bits'⟩ := by
    intro k vs' bits'
    rw [MsgState.move, ← List.drop_drop, List.drop_left]
  unfold msgTurn
  dsimp only
  rw [if_neg (by omega), List.append_assoc, readVarintUint_append hq (by omega)]
  dsimp only
  rw [List.drop_left]
  cases m.check .refill ((ownCase cases (value q)).any fun c => isFull flds bits c.idx)
      (readSubFlds cases (value q) (p ++ x) (lim - q.length) vs bits) with
  | ok k r => exact congrArg _ (hmove k r.1 r.2)
  | stop s => rfl
  | err e =>
    obtain ⟨e, vs'⟩ := e
    dsimp only
    by_cases he : e = .tagMismatch
    · rw [if_pos he, if_pos he]
      cases m.check .swallow (ownCase cases (value q)).isSome
          (skipUnknown m (value q) (p ++ x) (lim - q.length)) with
      | ok k r => exact congrArg _ (hmove k vs' bits)
      | err e => rfl
      | stop s => rfl
    · rw [if_neg he, if_neg he]

/-- A field of the schema whose payload is read. -/
theorem msgTurn_own {c : Case} {v : Val} (hq : Numeral 32 q)
    (hlim : q.length + p.length ≤ lim) (hown : ownCase cases (value q) = some c)
    (hfull : (m.traps .refill && isFull flds bits c.idx) = false)
    (hread : c.read (p ++ x) (lim - q.length) (vs.getD c.idx .none) = .ok p.length v) :
    msgTurn m flds cases ⟨q ++ p ++ x, lim, n, vs, bits⟩ =
      .next ⟨x, lim - (q.length + p.length), n + (q.length + p.length), vs.set c.idx v,
        bits.set c.idx⟩ := by
  rw [msgTurn_tag hq hlim, readSubFlds_eq, hown]
  simp only [Option.any_some, Machine.check, hfull, Bool.false_eq_true, if_false, Case.run, hread,
    List.drop_left]

/-- A field that is not of the schema. -/
theorem msgTurn_unknown (hq : Numeral 32 q) (hlim : q.length + p.length ≤ lim)
    (hown : ownCase cases (value q) = none) (hpad : isPadding cases.length (value q) = false)
    (hform : PayloadForm (value q % 8) p) :
    msgTurn m flds cases ⟨q ++ p ++ x, lim, n, vs, bits⟩ =
      .next ⟨x, lim - (q.length + p.length), n + (q.length + p.length), vs, bits⟩ := by
  have hskip : skipUnknown m (value q) (p ++ x) (lim - q.length) = .ok p.length () :=
    skipUnknown_of_form hform (by omega)
  rw [msgTurn_tag hq hlim, readSubFlds_eq, hown]
  simp only [Option.any_none, Option.isSome_none, Machine.check, Bool.and_false, hpad,
    Bool.false_eq_true, if_false, if_true, hskip, List.drop_left]

/-- A tag that meets a label of no field. -/
theorem msgTurn_padding (hq : Numeral 32 q) (hlim : q.length + p.length ≤ lim)
    (hown : ownCase cases (value q) = none) (hpad : isPadding cases.length (value q) = true) :
    msgTurn m flds cases ⟨q ++ p ++ x, lim, n, vs, bits⟩ = .done (.stop .unreachable) := by
  rw [msgTurn_tag hq hlim, readSubFlds_eq, hown]
  simp only [Option.any_none, Machine.check, Bool.and_false, hpad, Bool.false_eq_true, if_false,
    if_true]

section Records

variable {r : Rec} {rs : List Rec}

theorem join_cons_append :
    Rec.join (r :: rs) ++ x = r.tagBytes ++ r.payload ++ (Rec.join rs ++ x) := by
  rw [Rec.join_cons, Rec.bytes, List.append_assoc]

theorem length_join_cons :
    (Rec.join (r :: rs)).length = r.tagBytes.length + r.payload.length + (Rec.join rs).length := by
  rw [Rec.join_cons, Rec.bytes, List.length_append, List.length_append]

/-- The first is not of the schema. -/
theorem msgTurn_unknown_rec (hown : ownCase cases r.tag = none)
    (hpad : isPadding cases.length r.tag = false) :
    msgTurn m flds cases ⟨Rec.join (r :: rs) ++ x, (Rec.join (r :: rs)).length, n, vs, bits⟩ =
      .next ⟨Rec.join rs ++ x, (Rec.join rs).length, n + r.bytes.length, vs, bits⟩ := by
  rw [join_cons_append, length_join_cons]
  refine (msgTurn_unknown r.numeral ?_ hown hpad r.form).trans ?_
  · omega
  · rw [Nat.add_sub_cancel_left, Rec.bytes, List.length_append]

theorem msgTurn_padding_rec (hown : ownCase cases r.tag = none)
    (hpad : isPadding cases.length r.tag = true) :
    msgTurn m flds cases ⟨Rec.join (r :: rs) ++ x, (Rec.join (r :: rs)).length, n, vs, bits⟩ =
      .done (.stop .unreachable) := by
  rw [join_cons_append, length_join_cons]
  exact msgTurn_padding r.numeral (by omega) hown hpad

end Records

/-- The loop over the fields of a message ends as its body says. -/
theorem loop_msgTurn {s : MsgState} {r : MsgRes} (h : Loop.Ends (msgTurn m flds cases) s r)
    (hlim : s.lim ≤ lim) : loop (msgTurn m flds cases) lim s = r :=
  (ends_loop MsgState.lim msgTurn_progress hlim).unique h

end Message

def Container.isFixed : Container → Bool
  | .fixed .. => true
  | _ => false

section Elements

variable {elem : Fld} {c : Container} {read : Reader} {q p x : List UInt8} {acc : List Val}

theorem elemTurn_end : elemTurn elem c read ⟨x, 0, n, acc⟩ = .done (.ok n (.list acc)) := by
  simp [elemTurn]

/-- What does not begin with the tag of the run ends it. -/
theorem elemTurn_stop (hp : elem.isPacked = false) (hacc : acc ≠ [])
    (hx : startsWithVarintBytes elem.tag x lim = none) :
    elemTurn elem c read ⟨x, lim, n, acc⟩ = .done (.ok n (.list acc)) := by
  have hexam : examTag elem acc.isEmpty x lim = none := by
    have hne : acc.isEmpty = false := by simpa using hacc
    simp [examTag, hp, hne, hx]
  unfold elemTurn
  dsimp only
  split
  · rfl
  · rw [hexam]

/-- The tag in front of an element, if it stands there, is skipped. -/
theorem startsWith_varintBytes {u : ℕ} {y : List UInt8} (hy : y ≠ [])
    (hlim : (varintBytes u).length + y.length ≤ lim) :
    startsWithVarintBytes u (varintBytes u ++ y ++ x) lim = some (varintBytes u).length := by
  have hpos : 0 < y.length := List.length_pos_of_ne_nil hy
  rw [startsWithVarintBytes, if_pos ⟨by omega, by simp⟩]

/-- The bytes in front of an element: the tag, which the first element of a run has lost. -/
def elemTag (elem : Fld) (first : Bool) : List UInt8 :=
  if elem.isPacked || first then [] else varintBytes elem.tag

theorem examTag_elemTag {first : Bool} (hp : p ≠ [])
    (hlim : (elemTag elem first).length + p.length ≤ lim) :
    examTag elem first (elemTag elem first ++ p ++ x) lim = some (elemTag elem first).length := by
  unfold examTag
  unfold elemTag at hlim ⊢
  split
  · rfl
  next h =>
    rw [if_neg h] at hlim
    exact startsWith_varintBytes hp hlim

/-- An element that is read. -/
theorem elemTurn_read {v : Val} (hp : p ≠ [])
    (hlim : (elemTag elem acc.isEmpty).length + p.length ≤ lim)
    (hread : read (p ++ x) (lim - (elemTag elem acc.isEmpty).length) elem.freshVal =
      .ok p.length v) :
    elemTurn elem c read ⟨elemTag elem acc.isEmpty ++ p ++ x, lim, n, acc⟩ =
      .next ⟨x, lim - ((elemTag elem acc.isEmpty).length + p.length),
        n + ((elemTag elem acc.isEmpty).length + p.length), c.add acc v⟩ := by
  have hpos : 0 < p.length := List.length_pos_of_ne_nil hp
  have hdrop : (elemTag elem acc.isEmpty ++ (p ++ x)).drop
      ((elemTag elem acc.isEmpty).length + p.length) = x := by
    rw [← List.drop_drop, List.drop_left, List.drop_left]
  unfold elemTurn
  dsimp only
  rw [if_neg (by omega), examTag_elemTag hp hlim]
  dsimp only
  rw [List.append_assoc, List.drop_left, hread]
  dsimp only
  rw [hdrop]

/-- An unpacked run into a container that is cleared first is its loop. -/
theorem checked_unpacked (hp : elem.isPacked = false) {lim : ℕ} (r : Rd) : (match r with
    | .ok n v =>
      if elem.isPacked && n ≠ lim then .err (.invalidLength, v)
      else if (elem.isPacked && elem.isStaticLen) && v.elems.length ≠ lim / elem.staticFldSize then
        .err (.invalidLength, v)
      else .ok n v
    | r => r : Rd) = r := by
  cases r <;> simp [hp]

theorem repeatedRead_cleared (hp : elem.isPacked = false) (hc : c.isFixed = false)
    (mem : List UInt8) (lim : ℕ) (u : Val) :
    repeatedRead m elem c read mem lim u =
      m.check .loneTag (lim = 0) (loop (elemTurn elem c read) lim ⟨mem, lim, 0, []⟩) := by
  unfold repeatedRead
  rw [hp, if_neg Bool.false_ne_true]
  cases c with
  | set o => exact congrArg _ (checked_unpacked hp _)
  | map o => exact congrArg _ (checked_unpacked hp _)
  | vec buf =>
    unfold readElems
    simp only [hp, Bool.false_and, Bool.false_eq_true, if_false]
    cases loop (elemTurn elem (.vec buf) read) lim ⟨mem, lim, 0, []⟩ <;> rfl
  | fixed k array => simp [Container.isFixed] at hc

/-- An unpacked run into a range of fixed size is as many elements. -/
theorem repeatedRead_fixed {k : ℕ} {array : Bool} (hp : elem.isPacked = false)
    (mem : List UInt8) (lim : ℕ) (u : Val) :
    repeatedRead m elem (.fixed k array) read mem lim u =
      m.check .loneTag (k = 0) (listOf (readEach m elem read true (u.elemsOf k) mem lim)) := by
  unfold repeatedRead
  rw [hp, if_neg Bool.false_ne_true]
  unfold readElems
  simp only [hp, Bool.false_and, Bool.false_eq_true, if_false]
  cases listOf (readEach m elem read true (u.elemsOf k) mem lim) <;> rfl

theorem loop_elemTurn {s : ElemState} {r : Rd} (hread : read.Progress)
    (h : Loop.Ends (elemTurn elem c read) s r) (hlim : s.lim ≤ lim) :
    loop (elemTurn elem c read) lim s = r :=
  (ends_loop ElemState.lim (elemTurn_progress hread) hlim).unique h

end Elements

end Jkl.Pb
