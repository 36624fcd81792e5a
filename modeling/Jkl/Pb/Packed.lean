import Jkl.Pb.Frames
import Jkl.Pb.MapField
import Jkl.Pb.VarintWords
import Jkl.Pb.WriterSpec

/-! The payload of a packed field: elements one after the other, without tags. -/
namespace Jkl.Pb
open Base128

/-- A payload that is nothing but pieces of one kind. -/
def Concat (L : List UInt8 → Prop) (payload : List UInt8) : Prop :=
  ∃ ps : List (List UInt8), payload = ps.flatten ∧ ∀ p ∈ ps, L p

theorem concat_nil (L : List UInt8 → Prop) : Concat L [] := ⟨[], rfl, by simp⟩

theorem Concat.cons {L : List UInt8 → Prop} {p payload : List UInt8} (hp : L p)
    (h : Concat L payload) : Concat L (p ++ payload) := by
  obtain ⟨ps, rfl, hps⟩ := h
  exact ⟨p :: ps, by simp, by simpa using ⟨hp, hps⟩⟩

theorem length_le_length_flatten {ps : List (List UInt8)} (h : ∀ p ∈ ps, p ≠ []) :
    ps.length ≤ ps.flatten.length := by
  induction ps with
  | nil => simp
  | cons p ps ih =>
    have hp := List.length_pos_of_ne_nil (h p (by simp))
    have hps := ih fun r hr => h r (by simp [hr])
    rw [List.flatten_cons, List.length_append, List.length_cons]
    omega

/-- As many pieces as bytes are single bytes. -/
theorem length_eq_one_of_length_flatten {ps : List (List UInt8)} (h : ∀ p ∈ ps, p ≠ [])
    (hlen : ps.flatten.length = ps.length) : ∀ p ∈ ps, p.length = 1 := by
  induction ps with
  | nil => simp
  | cons p ps ih =>
    have hp := List.length_pos_of_ne_nil (h p (by simp))
    have hps : ∀ r ∈ ps, r ≠ [] := fun r hr => h r (by simp [hr])
    have hle := length_le_length_flatten hps
    rw [List.flatten_cons, List.length_append, List.length_cons] at hlen
    intro r hr
    cases List.mem_cons.mp hr with
    | inl hrp =>
      rw [hrp]
      omega
    | inr hmem => exact ih hps (by omega) r hmem

theorem flatten_singles (payload : List UInt8) : (payload.map fun b => [b]).flatten = payload := by
  induction payload with
  | nil => rfl
  | cons b payload ih => simp [ih]

theorem eq_singles {ps : List (List UInt8)} (h : ∀ p ∈ ps, p.length = 1) :
    ps = ps.flatten.map fun b => [b] := by
  induction ps with
  | nil => rfl
  | cons p ps ih =>
    obtain ⟨b, rfl⟩ := List.length_eq_one_iff.mp (h p (by simp))
    have hps := ih fun r hr => h r (by simp [hr])
    rw [List.flatten_cons, List.singleton_append, List.map_cons, ← hps]

/-- What a reader of elements accepts, whatever the object held before: the pieces of a kind. -/
structure ReadsPieces (read : Reader) (L : List UInt8 → Prop) (val : List UInt8 → Val) : Prop where
  ne_nil : ∀ p, L p → p ≠ []
  ok : ∀ u p, L p → Payload read u p (val p)
  only : ∀ u mem lim k v, lim ≤ mem.length → read mem lim u = .ok k v →
    ∃ p rest, mem = p ++ rest ∧ L p ∧ p.length ≤ lim
  safe : ∀ u mem lim s, lim ≤ mem.length → read mem lim u ≠ .stop s

namespace ReadsPieces

variable {read : Reader} {L : List UInt8 → Prop} {val : List UInt8 → Val} {elem : Fld}
  {c : Container} {m : Machine}

theorem turn (h : ReadsPieces read L val) (hp : elem.isPacked = true) {p : List UInt8} (hL : L p)
    (x : List UInt8) {lim : ℕ} (hlim : p.length ≤ lim) (n : ℕ) (acc : List Val) :
    elemTurn elem c read ⟨p ++ x, lim, n, acc⟩ =
      .next ⟨x, lim - p.length, n + p.length, c.add acc (val p)⟩ := by
  have htag : elemTag elem acc.isEmpty = [] := by simp [elemTag, hp]
  have hread : read (p ++ x) (lim - (elemTag elem acc.isEmpty).length) elem.freshVal =
      .ok p.length (val p) := by
    rw [htag]
    exact h.ok _ p hL x lim hlim
  have hturn := elemTurn_read (c := c) (n := n) (x := x) (h.ne_nil p hL)
    (by simpa [htag] using hlim) hread
  simpa [htag] using hturn

/-- A loop over a payload of pieces adds what each stands for. -/
theorem ends (h : ReadsPieces read L val) (hp : elem.isPacked = true) {ps : List (List UInt8)}
    (hps : ∀ p ∈ ps, L p) (x : List UInt8) (n : ℕ) (acc : List Val) :
    Loop.Ends (elemTurn elem c read) ⟨ps.flatten ++ x, ps.flatten.length, n, acc⟩
      (.ok (n + ps.flatten.length) (.list ((ps.map val).foldl c.add acc))) := by
  induction ps generalizing n acc with
  | nil => exact .done elemTurn_end
  | cons p ps ih =>
    have hturn := h.turn (c := c) hp (hps p (by simp)) (ps.flatten ++ x)
      (Nat.le_add_right p.length ps.flatten.length) n acc
    rw [Nat.add_sub_cancel_left] at hturn
    have hrest := ih (fun q hq => hps q (by simp [hq])) (n + p.length) (c.add acc (val p))
    rw [Nat.add_assoc] at hrest
    simp only [List.flatten_cons, List.length_append, List.append_assoc, List.map_cons,
      List.foldl_cons]
    exact .next hturn hrest

/-- A loop over a payload that is nothing of that kind comes upon bytes that are not read. -/
theorem ends_err (h : ReadsPieces read L val) (hp : elem.isPacked = true) {payload : List UInt8}
    (hno : ¬ Concat L payload) (x : List UInt8) (n : ℕ) (acc : List Val) :
    ∃ e, Loop.Ends (elemTurn elem c read) ⟨payload ++ x, payload.length, n, acc⟩ (.err e) := by
  induction hk : payload.length using Nat.strong_induction_on generalizing payload n acc with
  | _ k ih =>
  have hpos : payload.length ≠ 0 := by
    intro h0
    rw [List.eq_nil_of_length_eq_zero h0] at hno
    exact hno (concat_nil L)
  cases hr : read (payload ++ x) payload.length elem.freshVal with
  | stop s => exact absurd hr (h.safe _ _ _ s (by simp))
  | err e =>
    refine ⟨(e.1, .list acc), .done ?_⟩
    unfold elemTurn
    simp [examTag, hp, hr, ← hk, hpos]
  | ok k' v =>
    obtain ⟨p, rest, hmem, hL, hle⟩ := h.only _ _ _ _ _ (by simp) hr
    obtain ⟨payload', rfl⟩ : p <+: payload :=
      List.prefix_of_prefix_length_le ⟨rest, hmem.symm⟩ (List.prefix_append payload x) hle
    have hturn := h.turn (c := c) hp hL (payload' ++ x) hle n acc
    rw [List.length_append, Nat.add_sub_cancel_left] at hturn
    have hplen := List.length_pos_of_ne_nil (h.ne_nil p hL)
    have hlen : (p ++ payload').length = p.length + payload'.length := List.length_append
    obtain ⟨e, hends⟩ := ih payload'.length (by omega) (fun hc => hno (hc.cons hL)) (n + p.length)
      (c.add acc (val p)) rfl
    rw [← hk, List.append_assoc, hlen]
    exact ⟨e, .next hturn hends⟩

/-- The elements of a range of fixed size, where the payload has as many pieces. -/
theorem readEach (h : ReadsPieces read L val) (hp : elem.isPacked = true) {ps : List (List UInt8)}
    (hps : ∀ p ∈ ps, L p) (x : List UInt8) (first : Bool) {es : List Val}
    (hlen : es.length = ps.length) :
    readEach m elem read first es (ps.flatten ++ x) ps.flatten.length =
      .ok ps.flatten.length (ps.map val) := by
  induction ps generalizing first es with
  | nil =>
    rw [List.eq_nil_of_length_eq_zero hlen]
    rfl
  | cons p ps ih =>
    cases es with
    | nil => simp at hlen
    | cons e es =>
      have hone := h.ok e p (hps p (by simp)) (ps.flatten ++ x) (p.length + ps.flatten.length)
        (Nat.le_add_right _ _)
      have htail : es.length = ps.length := by simpa using hlen
      have hrest := ih (fun q hq => hps q (by simp [hq])) false htail
      simp only [List.flatten_cons, List.length_append, List.append_assoc, List.map_cons,
        Pb.readEach, examTag, hp, Bool.true_or, if_true, List.drop_zero, Nat.sub_zero, hone,
        Nat.zero_add, List.drop_left, Nat.add_sub_cancel_left, hrest]

end ReadsPieces

namespace Fld

/-- What `read_impl` of an element takes at once. For a bool that is one byte. -/
def Piece : Fld → List UInt8 → Prop
  | varint _ ty _ _, p =>
    if ty.tar = .bool then p.length = 1 else Numeral (varintUintBits ty.zigzag ty.tar) p
  | fixed _ ty _ _, p => p.length = ty.size
  | _, _ => False

def pieceVal : Fld → List UInt8 → Val
  | varint _ ty c _, p =>
    .int (c.cast (if ty.tar = .bool then CInt.bool.cast (LittleEndian.load p)
      else varintVal ty.zigzag ty.tar (value p)))
  | fixed _ ty c _, p => .int (c.cast (loadLe ty.tar p))
  | _, _ => .none

theorem length_of_piece {elem : Fld} (hp : elem.isPacked = true) (hs : elem.isStaticLen = true)
    {p : List UInt8} (h : elem.Piece p) : p.length = elem.staticFldSize := by
  cases elem with
  | varint id ty c par =>
    have hty : ty.tar = .bool := by
      simp [isStaticLen] at hs
      exact hs.2
    simp only [Piece, hty, if_true] at h
    simp [staticFldSize, wireSize, hs, hp, tagWireSize, h]
  | fixed id ty c par =>
    have h : p.length = ty.size := h
    simp [staticFldSize, wireSize, hs, hp, tagWireSize, h]
  | _ => simp [isPacked, wireType] at hp

theorem size_pos (ty : FixedTy) : 0 < ty.size := by
  cases ty <;> decide

end Fld

theorem varintRead_bool {debug : Bool} {c : CInt} {p : Params} (mem : List UInt8) (lim : ℕ)
    (u : Val) :
    varintRead (.build debug) .bool c p mem lim u =
      if 0 < lim then
        match mem with
        | [] => .stop .fault
        | b :: _ => .ok 1 (p.wrap (.int (c.cast (CInt.bool.cast b.toNat))))
      else .err (.varintIncomplete, u) := by
  unfold varintRead readVarint
  simp only [VarintTy.tar, if_true]
  split_ifs with hlim
  · cases mem with
    | nil => rfl
    | cons b mem =>
      simp only [Res.andThen]
      exact MapField.build_check (Or.inl rfl)
  · rfl

theorem readsPieces_bool {debug : Bool} {id : ℕ} {c : CInt} {p : Params}
    (hopt : p.pOptional = false) :
    ReadsPieces (varintRead (.build debug) .bool c p) (Fld.varint id .bool c p).Piece
      (Fld.varint id .bool c p).pieceVal := by
  have hpiece : ∀ q, (Fld.varint id .bool c p).Piece q ↔ ∃ b, q = [b] := by
    intro q
    exact List.length_eq_one_iff
  constructor
  · intro q hq
    obtain ⟨b, rfl⟩ := (hpiece q).mp hq
    simp
  · intro u q hq x lim hlim
    obtain ⟨b, rfl⟩ := (hpiece q).mp hq
    rw [varintRead_bool, if_pos (show 0 < lim from hlim)]
    simp [Fld.pieceVal, VarintTy.tar, LittleEndian.load, Params.wrap, hopt]
  · intro u mem lim k v hmem h
    rw [varintRead_bool] at h
    split_ifs at h with hlim
    cases mem with
    | nil => simp at h
    | cons b mem => exact ⟨[b], mem, rfl, (hpiece [b]).mpr ⟨b, rfl⟩, hlim⟩
  · intro u mem lim s hmem h
    rw [varintRead_bool] at h
    split_ifs at h with hlim
    cases mem with
    | nil =>
      simp at hmem
      omega
    | cons b mem => simp at h

theorem varintRead_eq {m : Machine} {ty : VarintTy} {c : CInt} {p : Params}
    (hopt : p.pOptional = false) (hty : ty.tar ≠ .bool) (mem : List UInt8) (lim : ℕ) (u : Val) :
    varintRead m ty c p mem lim u =
      match readVarintUint (varintUintBits ty.zigzag ty.tar) mem lim with
      | .ok n w => .ok n (.int (c.cast (varintVal ty.zigzag ty.tar w)))
      | .err e => .err (e, u)
      | .stop s => .stop s := by
  unfold varintRead readVarint
  rw [if_neg hty]
  cases readVarintUint (varintUintBits ty.zigzag ty.tar) mem lim with
  | ok n w =>
    simp only [Res.andThen, Machine.check, hty, decide_false, Bool.false_and, Bool.and_false,
      Bool.false_eq_true, if_false, Params.wrap, hopt, varintVal]
  | err e => rfl
  | stop s => rfl

theorem readsPieces_varint {m : Machine} {id : ℕ} {ty : VarintTy} {c : CInt} {p : Params}
    (hopt : p.pOptional = false) (hty : ty.tar ≠ .bool) :
    ReadsPieces (varintRead m ty c p) (Fld.varint id ty c p).Piece
      (Fld.varint id ty c p).pieceVal := by
  have hpiece : ∀ q,
      (Fld.varint id ty c p).Piece q ↔ Numeral (varintUintBits ty.zigzag ty.tar) q := by
    intro q
    simp only [Fld.Piece, hty, if_false]
  have hread := varintRead_eq (m := m) (c := c) hopt hty
  constructor
  · intro q hq
    exact ((hpiece q).mp hq).1.ne_nil
  · intro u q hq x lim hlim
    rw [hread, readVarintUint_append ((hpiece q).mp hq) hlim]
    simp only [Fld.pieceVal, hty, if_false]
  · intro u mem lim k v hmem h
    rw [hread] at h
    cases hr : readVarintUint (varintUintBits ty.zigzag ty.tar) mem lim with
    | ok n w =>
      obtain ⟨q, rest, rfl, hq, hlim, -, -⟩ := readVarintUint_eq_ok.mp hr
      exact ⟨q, rest, rfl, (hpiece q).mpr hq, hlim⟩
    | err e => simp [hr] at h
    | stop s => simp [hr] at h
  · intro u mem lim s hmem h
    rw [hread] at h
    cases hr : readVarintUint (varintUintBits ty.zigzag ty.tar) mem lim with
    | ok n w => simp [hr] at h
    | err e => simp [hr] at h
    | stop s => exact readVarintUint_ne_stop hmem hr

theorem readsPieces_fixed {id : ℕ} {ty : FixedTy} {c : CInt} {p : Params}
    (hopt : p.pOptional = false) :
    ReadsPieces (fixedRead ty c p) (Fld.fixed id ty c p).Piece (Fld.fixed id ty c p).pieceVal := by
  have hpiece : ∀ q, (Fld.fixed id ty c p).Piece q ↔ q.length = ty.size := fun q => Iff.rfl
  have hsize := Fld.size_pos ty
  constructor
  · intro q hq hnil
    rw [hpiece, hnil, List.length_nil] at hq
    omega
  · intro u q hq x lim hlim
    rw [hpiece] at hq
    have hload : load ty.size (q ++ x) = some q := by
      rw [load, if_pos (by rw [List.length_append]; omega), ← hq, List.take_left]
    simp only [fixedRead, hload, Params.wrap, hopt, Bool.false_eq_true, if_false, Fld.pieceVal, hq]
    rw [if_pos (by omega)]
  · intro u mem lim k v hmem h
    unfold fixedRead at h
    split_ifs at h with hlim
    refine ⟨mem.take ty.size, mem.drop ty.size, (List.take_append_drop _ _).symm, ?_, ?_⟩
    · rw [hpiece, List.length_take]
      omega
    · rw [List.length_take]
      omega
  · intro u mem lim s hmem h
    unfold fixedRead at h
    split_ifs at h with hlim
    rw [load, if_pos (by omega)] at h
    simp at h

theorem pOptional_of_isElement {f : Fld} (h : f.isElement = true) :
    f.params.pOptional = false := by
  have ho := Fld.isOptional_of_isElement h
  cases f <;> simp_all [Fld.isOptional, Fld.params, Params.isOptional]

/-- An element of a packed field is read a piece at a time. -/
theorem readsPieces (debug : Bool) {elem : Fld} (he : elem.isElement = true)
    (hp : elem.isPacked = true) :
    ReadsPieces (elem.reader (.build debug)) elem.Piece elem.pieceVal := by
  have hopt := pOptional_of_isElement he
  cases elem with
  | varint id ty c p =>
    by_cases hty : ty.tar = .bool
    · obtain rfl : ty = .bool := by cases ty <;> simp [VarintTy.tar] at hty ⊢
      exact readsPieces_bool hopt
    · exact readsPieces_varint hopt hty
  | fixed id ty c p => exact readsPieces_fixed hopt
  | _ => simp [Fld.isPacked, Fld.wireType] at hp

section Field

variable {m : Machine} {elem : Fld} {c : Container} {q payload x : List UInt8} {lim : ℕ} {u : Val}

/-- A packed field is its length and then its elements. -/
theorem repeatedRead_packed (hp : elem.isPacked = true) (hq : Numeral 32 q)
    (hlen : value q = payload.length) (hlim : q.length + payload.length ≤ lim)
    (hdvd : (elem.isStaticLen && payload.length % elem.staticFldSize ≠ 0) = false) :
    repeatedRead m elem c (elem.reader m) (q ++ payload ++ x) lim u =
      (readElems m elem c (elem.reader m) (m.region (payload ++ x) payload.length) payload.length
        u).advance q.length := by
  unfold repeatedRead
  rw [if_pos hp, List.append_assoc, readVarintUint_append hq (by omega)]
  unfold Res.andThen
  dsimp only
  rw [if_neg (by omega), List.drop_left, hlen, if_neg (by rw [hdvd]; exact Bool.false_ne_true)]
  cases hr : readElems m elem c (elem.reader m) (m.region (payload ++ x) payload.length)
      payload.length u with
  | ok n v =>
    have hn : n = payload.length := readElems_packed_exact hp hdvd hr
    simp [Res.advance, Machine.check, hn]
  | err e => rfl
  | stop s => rfl

/-- Elements of one length do not make up a payload of another. -/
theorem repeatedRead_odd (hp : elem.isPacked = true) (hq : Numeral 32 q)
    (hlen : value q = payload.length) (hlim : q.length + payload.length ≤ lim)
    (hodd : (elem.isStaticLen && payload.length % elem.staticFldSize ≠ 0) = true) :
    repeatedRead m elem c (elem.reader m) (q ++ payload ++ x) lim u = .err (.invalidLength, u) := by
  unfold repeatedRead
  rw [if_pos hp, List.append_assoc, readVarintUint_append hq (by omega)]
  unfold Res.andThen
  dsimp only
  rw [if_neg (by omega), hlen, if_pos hodd]

end Field

end Jkl.Pb
