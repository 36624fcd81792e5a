import Jkl.Pb.Packed

/-! A packed field into a set, which may keep fewer elements than the payload has. -/
namespace Jkl.Pb
open Base128

namespace Fld

/-- The encodings of an element of a packed field. A bool is a varint of any length. -/
def Encodes : Fld → List UInt8 → Prop
  | varint _ ty _ _, p =>
    Numeral (if ty.tar = .bool then 64 else varintUintBits ty.zigzag ty.tar) p
  | fixed _ ty _ _, p => p.length = ty.size
  | _, _ => False

/-- What an encoding stands for, in the type of the element. -/
def decoded : Fld → List UInt8 → Val
  | varint _ ty c _, p => .int (c.cast (varintVal ty.zigzag ty.tar (value p)))
  | fixed _ ty c _, p => .int (c.cast (loadLe ty.tar p))
  | _, _ => .none

end Fld

/-- No two elements take the same place in a set. -/
abbrev Distinct (o : Sorted.Order Val) (vs : List Val) : Prop := vs.Pairwise fun a b => ¬ o.Tied a b

/-- A packed field into a set: a payload that consists of encodings is read to the set of what they
stand for, and any other is refused. -/
structure ReadsSet (debug : Bool) (elem : Fld) (o : Sorted.Order Val) (q payload x : List UInt8)
    (lim : ℕ) (u : Val) : Prop where
  ok : ∀ ps : List (List UInt8), payload = ps.flatten → (∀ p ∈ ps, elem.Encodes p) →
    ∃ vs, repeatedRead (.build debug) elem (.set o) (elem.reader (.build debug))
        (q ++ payload ++ x) lim u = .ok (q.length + payload.length) (.list vs) ∧
      Sorted.IsSetOf o vs (ps.map elem.decoded)
  err : ¬ Concat elem.Encodes payload →
    ∃ e, repeatedRead (.build debug) elem (.set o) (elem.reader (.build debug))
      (q ++ payload ++ x) lim u = .err e

/-- The bools that the bytes of a payload are read to. -/
def byteBools (c : CInt) (payload : List UInt8) : List Val :=
  payload.map fun b => .int (c.cast (CInt.bool.cast b.toNat))

/-- The payloads that a set reads as it should. -/
def Fld.SetReadable (o : Sorted.Order Val) (payload : List UInt8) : Fld → Prop
  | .varint _ ty c _ => ty.tar = .bool →
    (∀ b ∈ payload, b.toNat < 0x80) ∧ Distinct o (byteBools c payload) ∨
      ¬ Concat (Numeral 64) payload ∧ ¬ Distinct o (byteBools c payload)
  | .fixed id ty c p => ∀ ps : List (List UInt8), payload = ps.flatten →
    (∀ q ∈ ps, q.length = ty.size) → Distinct o (ps.map (fixed id ty c p).decoded)
  | _ => True

section Pieces

variable {debug : Bool} {elem : Fld} {o : Sorted.Order Val} {q x : List UInt8} {lim : ℕ} {u : Val}

theorem length_flatten_pieces {ps : List (List UInt8)} {k : ℕ} (h : ∀ p ∈ ps, p.length = k) :
    ps.flatten.length = ps.length * k := by
  induction ps with
  | nil => simp
  | cons p ps ih =>
    have hp := h p (by simp)
    have hps := ih fun r hr => h r (by simp [hr])
    rw [List.flatten_cons, List.length_append, hp, hps, List.length_cons]
    ring

theorem staticFldSize_pos (hp : elem.isPacked = true) (hs : elem.isStaticLen = true) :
    0 < elem.staticFldSize := by
  cases elem with
  | varint id ty c par => simp [Fld.staticFldSize, Fld.wireSize, hs]
  | fixed id ty c par =>
    have hsize := Fld.size_pos ty
    simp [Fld.staticFldSize, Fld.wireSize, hs, hsize]
  | _ => simp [Fld.isPacked, Fld.wireType] at hp

section Loop

variable {m : Machine} {read : Reader} {mem : List UInt8} {len : ℕ} {vs : List Val}

theorem readElems_set_ok
    (hloop : loop (elemTurn elem (.set o) read) len ⟨mem, len, 0, []⟩ = .ok len (.list vs))
    (hcnt : elem.isStaticLen = true → vs.length = len / elem.staticFldSize) :
    readElems m elem (.set o) read mem len u = .ok len (.list vs) := by
  have hkept : ¬ (elem.isPacked && elem.isStaticLen &&
      (Val.list vs).elems.length ≠ len / elem.staticFldSize) = true := by
    by_cases hs : elem.isStaticLen = true
    · simp [Val.elems, hcnt hs]
    · simp [hs]
  unfold readElems
  simp only [hloop]
  rw [if_neg (by simp), if_neg hkept]

theorem readElems_set_lost (hp : elem.isPacked = true) (hs : elem.isStaticLen = true)
    (hloop : loop (elemTurn elem (.set o) read) len ⟨mem, len, 0, []⟩ = .ok len (.list vs))
    (hcnt : vs.length ≠ len / elem.staticFldSize) :
    readElems m elem (.set o) read mem len u = .err (.invalidLength, .list vs) := by
  have hlost : (elem.isPacked && elem.isStaticLen &&
      (Val.list vs).elems.length ≠ len / elem.staticFldSize) = true := by
    simp [Val.elems, hp, hs, hcnt]
  unfold readElems
  simp only [hloop]
  rw [if_neg (by simp), if_pos hlost]

theorem readElems_set_err {e : PbErr × Val}
    (hloop : loop (elemTurn elem (.set o) read) len ⟨mem, len, 0, []⟩ = .err e) :
    readElems m elem (.set o) read mem len u = .err e := by
  unfold readElems
  simp only [hloop]

end Loop

/-- The elements of a payload are inserted one by one, and counted where they have one length. -/
theorem set_pieces (debug : Bool) (he : elem.isElement = true) (hp : elem.isPacked = true)
    (hq : Numeral 32 q)
    {ps : List (List UInt8)} (hps : ∀ p ∈ ps, elem.Piece p) (hlen : value q = ps.flatten.length)
    (hlim : q.length + ps.flatten.length ≤ lim) :
    repeatedRead (.build debug) elem (.set o) (elem.reader (.build debug))
        (q ++ ps.flatten ++ x) lim u =
      if elem.isStaticLen = true ∧
          ((ps.map elem.pieceVal).foldl (Container.set o).add []).length ≠ ps.length then
        .err (.invalidLength, .list ((ps.map elem.pieceVal).foldl (Container.set o).add []))
      else .ok (q.length + ps.flatten.length)
        (.list ((ps.map elem.pieceVal).foldl (Container.set o).add [])) := by
  have hsize : elem.isStaticLen = true → ps.flatten.length = ps.length * elem.staticFldSize := by
    intro hs
    exact length_flatten_pieces fun p hmem => Fld.length_of_piece hp hs (hps p hmem)
  have hdvd : (elem.isStaticLen && ps.flatten.length % elem.staticFldSize ≠ 0) = false := by
    by_cases hs : elem.isStaticLen = true
    · simp [hsize hs]
    · simp [hs]
  have hcnt : elem.isStaticLen = true → ps.flatten.length / elem.staticFldSize = ps.length := by
    intro hs
    rw [hsize hs]
    exact Nat.mul_div_cancel _ (staticFldSize_pos hp hs)
  have hends := (readsPieces debug he hp).ends (c := .set o) hp hps x 0 []
  rw [Nat.zero_add] at hends
  have hloop := loop_elemTurn (progress_of_isElement he) hends le_rfl
  have hread := repeatedRead_packed (m := .build debug) (c := .set o) (x := x) (u := u) hp hq hlen
    hlim hdvd
  generalize (ps.map elem.pieceVal).foldl (Container.set o).add [] = vs at hloop ⊢
  split_ifs with hlost
  · have hne : vs.length ≠ ps.flatten.length / elem.staticFldSize := by
      rw [hcnt hlost.1]
      exact hlost.2
    exact hread.trans (congrArg _ (readElems_set_lost hp hlost.1 hloop hne))
  · have hkept : elem.isStaticLen = true → vs.length = ps.flatten.length / elem.staticFldSize := by
      intro hs
      rw [hcnt hs]
      by_contra hne
      exact hlost ⟨hs, hne⟩
    exact hread.trans (congrArg _ (readElems_set_ok hloop hkept))

/-- No set is read from a payload that does not consist of pieces. -/
theorem set_refused (he : elem.isElement = true) (hp : elem.isPacked = true) (hq : Numeral 32 q)
    {payload : List UInt8} (hno : ¬ Concat elem.Piece payload) (hlen : value q = payload.length)
    (hlim : q.length + payload.length ≤ lim) :
    ∃ e, repeatedRead (.build debug) elem (.set o) (elem.reader (.build debug))
      (q ++ payload ++ x) lim u = .err e := by
  cases hodd : (elem.isStaticLen && payload.length % elem.staticFldSize ≠ 0) with
  | true => exact ⟨_, repeatedRead_odd hp hq hlen hlim hodd⟩
  | false =>
    obtain ⟨e, hends⟩ := (readsPieces debug he hp).ends_err (c := .set o) hp hno x 0 []
    have hloop := loop_elemTurn (progress_of_isElement he) hends le_rfl
    have hread := repeatedRead_packed (m := .build debug) (c := .set o) (x := x) (u := u) hp hq hlen
      hlim hodd
    exact ⟨e, hread.trans (congrArg _ (readElems_set_err hloop))⟩

/-- None of the elements is lost exactly if they are distinct. -/
theorem length_set_iff (vs : List Val) :
    (vs.foldl (Container.set o).add []).length = vs.length ↔ Distinct o vs := by
  have hnil : Sorted.Increasing o [] := List.Pairwise.nil
  have h := Sorted.length_foldl_place_eq_iff vs hnil
  rw [List.length_nil, Nat.zero_add] at h
  constructor
  · intro heq
    exact (h.mp heq).1
  · intro hd
    exact h.mpr ⟨hd, by simp⟩

end Pieces

section Law

variable {debug : Bool} {elem : Fld} {o : Sorted.Order Val} {q payload x : List UInt8} {lim : ℕ}
  {u : Val}

/-- Varints that are no bools are inserted without a count. -/
theorem readsSet_varint (he : elem.isElement = true) (hp : elem.isPacked = true)
    (hs : elem.isStaticLen = false) (henc : elem.Encodes = elem.Piece)
    (hval : elem.decoded = elem.pieceVal) (hq : Numeral 32 q) (hlen : value q = payload.length)
    (hlim : q.length + payload.length ≤ lim) : ReadsSet debug elem o q payload x lim u := by
  constructor
  · intro ps hpay hps
    subst hpay
    rw [henc] at hps
    have hread := set_pieces debug (o := o) (x := x) (u := u) he hp hq hps hlen hlim
    rw [if_neg (by simp [hs])] at hread
    refine ⟨_, hread, ?_⟩
    rw [hval]
    exact Sorted.isSetOf_foldl_place _
  · intro hno
    rw [henc] at hno
    exact set_refused he hp hq hno hlen hlim

/-- Elements of one length are counted, and a set that has lost one is refused. -/
theorem readsSet_static (he : elem.isElement = true) (hp : elem.isPacked = true)
    (hs : elem.isStaticLen = true) (henc : elem.Encodes = elem.Piece)
    (hval : elem.decoded = elem.pieceVal) (hq : Numeral 32 q) (hlen : value q = payload.length)
    (hlim : q.length + payload.length ≤ lim) :
    ReadsSet debug elem o q payload x lim u ↔
      ∀ ps : List (List UInt8), payload = ps.flatten → (∀ p ∈ ps, elem.Encodes p) →
        Distinct o (ps.map elem.decoded) := by
  constructor
  · intro h ps hpay hps
    obtain ⟨vs, hok, -⟩ := h.ok ps hpay hps
    subst hpay
    rw [henc] at hps
    rw [set_pieces debug he hp hq hps hlen hlim] at hok
    rw [hval, ← length_set_iff, List.length_map]
    by_contra hne
    rw [if_pos ⟨hs, hne⟩] at hok
    cases hok
  · intro h
    constructor
    · intro ps hpay hps
      have hdist := h ps hpay hps
      subst hpay
      rw [hval, ← length_set_iff, List.length_map] at hdist
      rw [henc] at hps
      have hread := set_pieces debug (o := o) (x := x) (u := u) he hp hq hps hlen hlim
      rw [if_neg fun hlost => hlost.2 hdist] at hread
      refine ⟨_, hread, ?_⟩
      rw [hval]
      exact Sorted.isSetOf_foldl_place _
    · intro hno
      rw [henc] at hno
      exact set_refused he hp hq hno hlen hlim

/-- Numerals of bytes without a continuation bit are single bytes. -/
theorem numeral_of_small {b : UInt8} (h : b.toNat < 0x80) : Numeral 64 [b] := by
  refine ⟨by simp [Complete, h], by simp [maxVarintWireSize], ?_⟩
  have hv := value_lt [b]
  simp only [List.length_singleton, pow_one] at hv
  omega

theorem length_of_small {p : List UInt8} (hp : Complete p) (h : ∀ b ∈ p, b.toNat < 0x80) :
    p.length = 1 := by
  cases p with
  | nil => exact hp.elim
  | cons b p =>
    have hb := h b (by simp)
    obtain rfl : p = [] := by simpa [Complete, hb] using hp
    rfl

theorem small_of_length {b : UInt8} (h : Complete [b]) : b.toNat < 0x80 := by
  by_contra hb
  simp [Complete, hb] at h

/-- A bool that is one byte long is read as what it stands for. -/
theorem decoded_single {id : ℕ} {c : CInt} {p : Params} {b : UInt8} (h : b.toNat < 0x80) :
    (Fld.varint id .bool c p).decoded [b] = .int (c.cast (CInt.bool.cast b.toNat)) := by
  have hv : value [b] = b.toNat := by
    simp only [value]
    omega
  simp [Fld.decoded, varintVal, VarintTy.zigzag, VarintTy.tar, hv]

theorem isStaticLen_bool {id : ℕ} {c : CInt} {p : Params}
    (he : (Fld.varint id .bool c p).isElement = true) :
    (Fld.varint id .bool c p).isStaticLen = true := by
  have ho := Fld.isOptional_of_isElement he
  simp_all [Fld.isStaticLen, Fld.isOptional, Fld.params, VarintTy.tar]

theorem piece_bools {id : ℕ} {c : CInt} {p : Params} (payload : List UInt8) :
    ∀ r ∈ payload.map fun b => [b], (Fld.varint id .bool c p).Piece r := by
  simp [Fld.Piece, VarintTy.tar]

theorem pieceVal_bools {id : ℕ} {c : CInt} {p : Params} (payload : List UInt8) :
    (payload.map fun b => [b]).map (Fld.varint id .bool c p).pieceVal = byteBools c payload := by
  simp [byteBools, Fld.pieceVal, VarintTy.tar, LittleEndian.load]

/-- Bools are counted as bytes. -/
theorem set_bools (debug : Bool) {id : ℕ} {c : CInt} {p : Params}
    (he : (Fld.varint id .bool c p).isElement = true) (hq : Numeral 32 q)
    (hlen : value q = payload.length) (hlim : q.length + payload.length ≤ lim) :
    (Distinct o (byteBools c payload) →
      repeatedRead (.build debug) (.varint id .bool c p) (.set o)
        ((Fld.varint id .bool c p).reader (.build debug)) (q ++ payload ++ x) lim u =
        .ok (q.length + payload.length)
          (.list ((byteBools c payload).foldl (Container.set o).add []))) ∧
    (¬ Distinct o (byteBools c payload) → ∃ v,
      repeatedRead (.build debug) (.varint id .bool c p) (.set o)
        ((Fld.varint id .bool c p).reader (.build debug)) (q ++ payload ++ x) lim u =
        .err (.invalidLength, v)) := by
  have hsum : (payload.map fun b => [b]).flatten.length = payload.length :=
    congrArg List.length (flatten_singles payload)
  have hread := set_pieces debug (o := o) (x := x) (u := u) he rfl hq (piece_bools payload)
    (hlen.trans hsum.symm) (le_of_eq_of_le (congrArg _ hsum) hlim)
  have hcnt : (byteBools c payload).length = payload.length := List.length_map _
  rw [flatten_singles, pieceVal_bools, List.length_map] at hread
  constructor
  · intro hd
    rw [hread, if_neg]
    intro hlost
    exact hlost.2 (((length_set_iff _).mpr hd).trans hcnt)
  · intro hd
    rw [hread, if_pos]
    · exact ⟨_, rfl⟩
    · refine ⟨isStaticLen_bool he, fun heq => hd ?_⟩
      exact (length_set_iff _).mp (heq.trans hcnt.symm)

theorem readsSet_bool {id : ℕ} {c : CInt} {p : Params}
    (he : (Fld.varint id .bool c p).isElement = true) (hq : Numeral 32 q)
    (hlen : value q = payload.length) (hlim : q.length + payload.length ≤ lim) :
    ReadsSet debug (.varint id .bool c p) o q payload x lim u ↔
      (∀ b ∈ payload, b.toNat < 0x80) ∧ Distinct o (byteBools c payload) ∨
        ¬ Concat (Numeral 64) payload ∧ ¬ Distinct o (byteBools c payload) := by
  obtain ⟨hok, hlost⟩ := set_bools debug (o := o) (x := x) (u := u) he hq hlen hlim
  have herr : ¬ Distinct o (byteBools c payload) →
      ∃ e, repeatedRead (.build debug) (.varint id .bool c p) (.set o)
        ((Fld.varint id .bool c p).reader (.build debug)) (q ++ payload ++ x) lim u = .err e := by
    intro hd
    obtain ⟨v, hv⟩ := hlost hd
    exact ⟨_, hv⟩
  have hcnt : (byteBools c payload).length = payload.length := List.length_map _
  have hset := Sorted.isSetOf_foldl_place (o := o) (byteBools c payload)
  constructor
  · intro h
    by_cases hcat : Concat (Numeral 64) payload
    · obtain ⟨ps, hpay, hps⟩ := hcat
      obtain ⟨vs, hvs, hof⟩ := h.ok ps hpay hps
      have hd : Distinct o (byteBools c payload) := by
        by_contra hd
        obtain ⟨e, he⟩ := herr hd
        rw [he] at hvs
        cases hvs
      rw [hok hd] at hvs
      simp only [Res.ok.injEq, Val.list.injEq, true_and] at hvs
      have hsize := hof.length_le
      rw [← hvs, (length_set_iff _).mpr hd, hcnt, List.length_map] at hsize
      have hne : ∀ p ∈ ps, p ≠ [] := fun p hp => (hps p hp).1.ne_nil
      have hle := length_le_length_flatten hne
      rw [← hpay] at hle
      have hone := length_eq_one_of_length_flatten hne (by rw [← hpay]; omega)
      refine Or.inl ⟨?_, hd⟩
      intro b hb
      rw [hpay, List.mem_flatten] at hb
      obtain ⟨p, hp, hbp⟩ := hb
      obtain ⟨b', rfl⟩ := List.length_eq_one_iff.mp (hone p hp)
      rw [List.mem_singleton.mp hbp]
      exact small_of_length (hps _ hp).1
    · obtain ⟨e, he⟩ := h.err hcat
      refine Or.inr ⟨hcat, fun hd => ?_⟩
      rw [hok hd] at he
      cases he
  · intro h
    constructor
    · intro ps hpay hps
      have hcat : Concat (Numeral 64) payload := ⟨ps, hpay, hps⟩
      obtain ⟨hsmall, hd⟩ := h.resolve_right fun hno => hno.1 hcat
      refine ⟨_, hok hd, ?_⟩
      have hone : ∀ p ∈ ps, p.length = 1 := by
        intro p hp
        apply length_of_small (hps p hp).1
        intro b hb
        apply hsmall
        rw [hpay]
        exact List.mem_flatten_of_mem hp hb
      have hdec : ps.map (Fld.varint id .bool c p).decoded = byteBools c payload := by
        rw [eq_singles hone, ← hpay, List.map_map]
        apply List.map_congr_left
        intro b hb
        exact decoded_single (hsmall b hb)
      rw [hdec]
      exact hset
    · intro hno
      apply herr
      intro hd
      rcases h with ⟨hsmall, -⟩ | ⟨-, hnd⟩
      · apply hno
        refine ⟨payload.map fun b => [b], (flatten_singles payload).symm, ?_⟩
        intro p hp
        obtain ⟨b, hb, rfl⟩ := List.mem_map.mp hp
        exact numeral_of_small (hsmall b hb)
      · exact hnd hd

end Law

/-- A packed field is read into a set as it should be exactly for these payloads. -/
theorem readsSet_iff (debug : Bool) (elem : Fld) (he : elem.isElement = true)
    (hp : elem.isPacked = true) (o : Sorted.Order Val) (q payload x : List UInt8)
    (hq : Numeral 32 q) (hlen : value q = payload.length) (lim : ℕ)
    (hlim : q.length + payload.length ≤ lim) (u : Val) :
    ReadsSet debug elem o q payload x lim u ↔ elem.SetReadable o payload := by
  cases elem with
  | varint id ty c p =>
    by_cases hty : ty.tar = .bool
    · obtain rfl : ty = .bool := by cases ty <;> simp [VarintTy.tar] at hty ⊢
      rw [readsSet_bool he hq hlen hlim]
      simp [Fld.SetReadable, VarintTy.tar]
    · have hs : (Fld.varint id ty c p).isStaticLen = false := by simp [Fld.isStaticLen, hty]
      have henc : (Fld.varint id ty c p).Encodes = (Fld.varint id ty c p).Piece := by
        funext r
        simp only [Fld.Encodes, Fld.Piece, hty, if_false]
      have hval : (Fld.varint id ty c p).decoded = (Fld.varint id ty c p).pieceVal := by
        funext r
        simp only [Fld.decoded, Fld.pieceVal, hty, if_false]
      constructor
      · intro _ hb
        exact absurd hb hty
      · intro _
        exact readsSet_varint he hp hs henc hval hq hlen hlim
  | fixed id ty c p =>
    have hs : (Fld.fixed id ty c p).isStaticLen = true := by
      have ho := Fld.isOptional_of_isElement he
      simp_all [Fld.isStaticLen, Fld.isOptional, Fld.params]
    exact readsSet_static he hp hs rfl rfl hq hlen hlim
  | _ => simp [Fld.isPacked, Fld.wireType] at hp

/-- The element of `pb_repeated(pb_fixed32<"n", 1>())` over a `uint32_t`. -/
abbrev fixed32Elem : Fld := .fixed 1 .fixed32 .u32 .null

theorem readsSet_fixed32 :
    ReadsSet false fixed32Elem MapField.intOrder [8] [1, 0, 0, 0, 2, 0, 0, 0] [] 9 (.list []) ↔
      fixed32Elem.SetReadable MapField.intOrder [1, 0, 0, 0, 2, 0, 0, 0] :=
  readsSet_iff false fixed32Elem (by decide) (by decide) MapField.intOrder [8] _ [] (by decide)
    (by decide) 9 (by decide) (.list [])

/-- The same number twice is an invalid length. -/
theorem not_readsSet_fixed32 :
    ¬ ReadsSet false fixed32Elem MapField.intOrder [8] [1, 0, 0, 0, 1, 0, 0, 0] [] 9
      (.list []) := by
  intro h
  have hread : repeatedRead (.build false) fixed32Elem (.set MapField.intOrder)
      (fixed32Elem.reader (.build false)) ([8] ++ [1, 0, 0, 0, 1, 0, 0, 0] ++ []) 9 (.list []) =
      .err (.invalidLength, .list [.int 1]) := by
    decide +kernel
  have hencodes : ∀ p ∈ [[1, 0, 0, 0], [1, 0, 0, 0]], fixed32Elem.Encodes p := by
    simp [Fld.Encodes, FixedTy.size, FixedTy.tar, CInt.bits]
  obtain ⟨vs, hok, -⟩ := h.ok _ rfl hencodes
  rw [hread] at hok
  cases hok

end Jkl.Pb
