import Jkl.Pb.WriterSpec

/-! Where the sizing pass and the writing pass agree. The first measures a varint in its C++ type
and the second converts it to the wire type before it is written. -/
namespace Jkl.Pb
open Base128

/-- `zigzag_encode` without the machine words. -/
def zigzagInt (x : ℤ) : ℤ := if 0 ≤ x then 2 * x else -2 * x - 1

/-- The values whose size does not change with the conversion. -/
def VarintTy.SizeExact (c : CInt) (x : ℤ) : VarintTy → Prop
  | .int64 | .uint64 | .sint64 => True
  | .bool => c = .bool ∨ 0 ≤ x ∧ x < 2 ^ 7
  | .uint32 => 0 ≤ x ∧ (x < 2 ^ 32 ∨ x < 2 ^ 35 ∧ 2 ^ 28 ≤ x % 2 ^ 32)
  | .int32 =>
    if x < 0 then 2 ^ 31 ≤ x % 2 ^ 32
    else if x % 2 ^ 32 < 2 ^ 31 then x < 2 ^ 31 ∨ x < 2 ^ 35 ∧ 2 ^ 28 ≤ x % 2 ^ 32
    else 2 ^ 63 ≤ x
  | .sint32 =>
    -2 ^ 31 ≤ x ∧ x < 2 ^ 31 ∨ zigzagInt x < 2 ^ 35 ∧ 2 ^ 28 ≤ zigzagInt (CInt.i32.cast x)

instance (ty : VarintTy) (c : CInt) (x : ℤ) : Decidable (ty.SizeExact c x) := by
  cases ty <;> unfold VarintTy.SizeExact <;> infer_instance

theorem CInt.bounds_of_inRange {c : CInt} {x : ℤ} (h : c.InRange x) : -2 ^ 63 ≤ x ∧ x < 2 ^ 64 := by
  cases c <;> simp [CInt.InRange, CInt.signed, CInt.bits] at h ⊢ <;> omega

theorem varintUint_plain {c : CInt} {x : ℤ} (hc : c ≠ .bool) (h : c.InRange x) :
    (varintUint false c x : ℤ) = if x < 0 then x + 2 ^ 64 else x := by
  cases c <;> simp [CInt.InRange, CInt.signed, CInt.bits] at h hc <;>
    simp [varintUint, varintUintBits, fastBits, CInt.signed, CInt.bits] <;> split_ifs <;> omega

theorem varintUint_zigzag {c : CInt} {x : ℤ} (hs : c.signed = true) (h : c.InRange x) :
    (varintUint true c x : ℤ) = zigzagInt x := by
  simp only [varintUint, if_true, zigzagInt]
  exact zigzagEncode_eq hs h

/-- The lengths at which a conversion to 32 bits can change the number of groups. -/
theorem length_encode_steps (n : ℕ) :
    ((encode n).length ≤ 1 ↔ n < 2 ^ 7) ∧ ((encode n).length ≤ 4 ↔ n < 2 ^ 28) ∧
      ((encode n).length ≤ 5 ↔ n < 2 ^ 35) ∧ ((encode n).length ≤ 9 ↔ n < 2 ^ 63) ∧
      ((encode n).length ≤ 10 ↔ n < 2 ^ 70) := by
  have h := fun k (hk : 0 < k) => length_encode_le_iff (n := n) hk
  refine ⟨?_, ?_, ?_, ?_, ?_⟩
  · simpa using h 1 (by omega)
  · simpa using h 4 (by omega)
  · simpa using h 5 (by omega)
  · simpa using h 9 (by omega)
  · simpa using h 10 (by omega)

theorem length_encode_congr {m n : ℕ} (h : (m : ℤ) = n) : (encode m).length = (encode n).length := by
  rw [Int.ofNat_inj.mp h]

/-- The wire type is not bool: both passes encode an unsigned number. -/
theorem sizeExact_iff_of_ne_bool {c : CInt} {x : ℤ} {zigzag : Bool} {tar : CInt} (hc : c ≠ .bool)
    (ht : tar ≠ .bool) :
    varintWireSize zigzag c x = (appendVarint zigzag tar (tar.cast x)).length ↔
      (encode (varintUint zigzag c x)).length =
        (encode (varintUint zigzag tar (tar.cast x))).length := by
  rw [varintWireSize_eq hc, appendVarint_eq ht]

theorem cast_i64 {c : CInt} {x : ℤ} (hs : c.signed = true) (h : c.InRange x) :
    CInt.i64.cast x = x := by
  apply CInt.cast_of_inRange
  cases c <;> simp [CInt.InRange, CInt.signed, CInt.bits] at hs h ⊢ <;> omega

theorem sizeExact_uint32 {c : CInt} {x : ℤ} (hc : c ≠ .bool) (h : c.InRange x) :
    VarintTy.uint32.SizeExact c x ↔
      (encode (varintUint false c x)).length =
        (encode (varintUint false .u32 (CInt.u32.cast x))).length := by
  have ha := varintUint_plain hc h
  have hb := varintUint_plain (by decide) (CInt.inRange_cast .u32 x)
  have hy : CInt.u32.cast x = x % 2 ^ 32 := by simp [CInt.cast, CInt.signed, CInt.bits]
  have hlo : 0 ≤ x % 2 ^ 32 := Int.emod_nonneg x (by norm_num)
  have hhi : x % 2 ^ 32 < 2 ^ 32 := Int.emod_lt_of_pos x (by norm_num)
  have hx := CInt.bounds_of_inRange h
  rw [hy, if_neg (by omega)] at hb
  have sa := length_encode_steps (varintUint false c x)
  have sb := length_encode_steps (varintUint false .u32 (x % 2 ^ 32))
  rw [hy]
  unfold VarintTy.SizeExact
  by_cases hsmall : 0 ≤ x ∧ x < 2 ^ 32
  · have heq : (varintUint false c x : ℤ) = varintUint false .u32 (x % 2 ^ 32) := by
      rw [ha, hb, if_neg (by omega)]
      omega
    have := length_encode_congr heq
    simp only [hsmall, true_and, true_or, true_iff]
    exact this
  · split_ifs at ha <;> omega

theorem sizeExact_int32 {c : CInt} {x : ℤ} (hc : c ≠ .bool) (h : c.InRange x) :
    VarintTy.int32.SizeExact c x ↔
      (encode (varintUint false c x)).length =
        (encode (varintUint false .i32 (CInt.i32.cast x))).length := by
  have ha := varintUint_plain hc h
  have hb := varintUint_plain (by decide) (CInt.inRange_cast .i32 x)
  have hy : CInt.i32.cast x = (x + 2 ^ 31) % 2 ^ 32 - 2 ^ 31 := by
    simp [CInt.cast, CInt.signed, CInt.bits]
  have hlo : 0 ≤ x % 2 ^ 32 := Int.emod_nonneg x (by norm_num)
  have hhi : x % 2 ^ 32 < 2 ^ 32 := Int.emod_lt_of_pos x (by norm_num)
  have hwrap : CInt.i32.cast x = if x % 2 ^ 32 < 2 ^ 31 then x % 2 ^ 32 else x % 2 ^ 32 - 2 ^ 32 := by
    rw [hy]
    split_ifs <;> omega
  have hx := CInt.bounds_of_inRange h
  have sa := length_encode_steps (varintUint false c x)
  have sb := length_encode_steps (varintUint false .i32 (CInt.i32.cast x))
  generalize varintUint false .i32 (CInt.i32.cast x) = n at hb sb ⊢
  unfold VarintTy.SizeExact
  by_cases hsmall : -2 ^ 31 ≤ x ∧ x < 2 ^ 31
  · have hcast : CInt.i32.cast x = x := by
      rw [hwrap]
      split_ifs <;> omega
    have heq : (varintUint false c x : ℤ) = n := by
      rw [ha, hb, hcast]
    have hlen := length_encode_congr heq
    simp only [hlen, iff_true]
    split_ifs <;> omega
  · rw [hwrap] at hb
    split_ifs at ha hb ⊢ <;> omega

theorem sizeExact_sint32 {c : CInt} {x : ℤ} (hs : c.signed = true) (h : c.InRange x) :
    VarintTy.sint32.SizeExact c x ↔
      (encode (varintUint true c x)).length =
        (encode (varintUint true .i32 (CInt.i32.cast x))).length := by
  have ha := varintUint_zigzag hs h
  have hb := varintUint_zigzag (by decide) (CInt.inRange_cast .i32 x)
  have hy : CInt.i32.InRange (CInt.i32.cast x) := CInt.inRange_cast .i32 x
  simp only [CInt.InRange, CInt.signed, CInt.bits, if_true] at hy
  have sa := length_encode_steps (varintUint true c x)
  have sb := length_encode_steps (varintUint true .i32 (CInt.i32.cast x))
  unfold VarintTy.SizeExact
  by_cases hsmall : -2 ^ 31 ≤ x ∧ x < 2 ^ 31
  · have hcast : CInt.i32.cast x = x := by
      apply CInt.cast_of_inRange
      simpa [CInt.InRange, CInt.signed, CInt.bits] using hsmall
    have heq : (varintUint true c x : ℤ) = varintUint true .i32 (CInt.i32.cast x) := by
      rw [ha, hb, hcast]
    have hlen := length_encode_congr heq
    simp only [hsmall, hlen, true_and, true_or]
  · have hbig : (2 ^ 32 : ℤ) ≤ zigzagInt x := by
      unfold zigzagInt
      split_ifs <;> omega
    have hfit : zigzagInt (CInt.i32.cast x) < 2 ^ 32 := by
      unfold zigzagInt
      split_ifs <;> omega
    have hnn : 0 ≤ zigzagInt (CInt.i32.cast x) := by
      unfold zigzagInt
      split_ifs <;> omega
    omega

theorem sizeExact_bool {c : CInt} {x : ℤ} (h : c.InRange x) :
    VarintTy.bool.SizeExact c x ↔ varintWireSize false c x = 1 := by
  unfold VarintTy.SizeExact
  by_cases hc : c = .bool
  · simp [varintWireSize, hc]
  · have ha := varintUint_plain hc h
    have hx := CInt.bounds_of_inRange h
    have sa := length_encode_steps (varintUint false c x)
    have hpos := length_encode_pos (varintUint false c x)
    rw [varintWireSize_eq hc]
    simp only [hc, false_or]
    split_ifs at ha <;> omega

/-- A bool is one byte, and so is what it is written as. -/
theorem sizeExact_of_bool (ty : VarintTy) {x : ℤ} (h : CInt.bool.InRange x) :
    ty.SizeExact .bool x ∧ (appendVarint ty.zigzag ty.tar (ty.tar.cast x)).length = 1 := by
  have hx : x = 0 ∨ x = 1 := h
  rcases hx with rfl | rfl <;> cases ty <;> decide

theorem sizeExact_iff {ty : VarintTy} {c : CInt} {x : ℤ}
    (hz : ty.zigzag = true → c.signed = true ∨ c = .bool) (h : c.InRange x) :
    ty.SizeExact c x ↔
      varintWireSize ty.zigzag c x = (appendVarint ty.zigzag ty.tar (ty.tar.cast x)).length := by
  by_cases hc : c = .bool
  · subst hc
    obtain ⟨hex, hlen⟩ := sizeExact_of_bool ty h
    rw [hlen]
    simp [hex, varintWireSize]
  have hsigned : ty.zigzag = true → c.signed = true := fun hzz => (hz hzz).resolve_right hc
  cases ty with
  | bool =>
    rw [sizeExact_bool h]
    simp [appendVarint, VarintTy.tar, VarintTy.zigzag]
  | uint32 =>
    rw [sizeExact_iff_of_ne_bool hc (by decide)]
    exact sizeExact_uint32 hc h
  | int32 =>
    rw [sizeExact_iff_of_ne_bool hc (by decide)]
    exact sizeExact_int32 hc h
  | sint32 =>
    rw [sizeExact_iff_of_ne_bool hc (by decide)]
    exact sizeExact_sint32 (hsigned rfl) h
  | sint64 =>
    have hcast := cast_i64 (hsigned rfl) h
    have heq : (varintUint true c x : ℤ) = varintUint true .i64 x := by
      rw [varintUint_zigzag (hsigned rfl) h, varintUint_zigzag (by decide)]
      rw [← hcast]
      exact CInt.inRange_cast .i64 x
    rw [sizeExact_iff_of_ne_bool hc (by decide)]
    simp only [VarintTy.SizeExact, true_iff, VarintTy.zigzag, VarintTy.tar, hcast]
    exact length_encode_congr heq
  | int64 =>
    have heq : (varintUint false c x : ℤ) = varintUint false .i64 (CInt.i64.cast x) := by
      rw [varintUint_plain hc h, varintUint_plain (by decide) (CInt.inRange_cast .i64 x)]
      have hy : CInt.i64.cast x = (x + 2 ^ 63) % 2 ^ 64 - 2 ^ 63 := by
        simp [CInt.cast, CInt.signed, CInt.bits]
      have hx := CInt.bounds_of_inRange h
      rw [hy]
      split_ifs <;> omega
    rw [sizeExact_iff_of_ne_bool hc (by decide)]
    simp only [VarintTy.SizeExact, true_iff]
    exact length_encode_congr heq
  | uint64 =>
    have heq : (varintUint false c x : ℤ) = varintUint false .u64 (CInt.u64.cast x) := by
      rw [varintUint_plain hc h, varintUint_plain (by decide) (CInt.inRange_cast .u64 x)]
      have hy : CInt.u64.cast x = x % 2 ^ 64 := by simp [CInt.cast, CInt.signed, CInt.bits]
      have hx := CInt.bounds_of_inRange h
      rw [hy]
      split_ifs <;> omega
    rw [sizeExact_iff_of_ne_bool hc (by decide)]
    simp only [VarintTy.SizeExact, true_iff]
    exact length_encode_congr heq

namespace Node

/-- `wire_size` of the call is the number of bytes `write_impl` moves on. -/
def Agrees (n : Node) : Prop :=
  (n.fld.wireSize n.skipTag n.skipLen n.d n.u).1 =
    (n.fld.writeImpl n.skipTag n.skipLen n.d n.u
      (n.fld.wireSize n.skipTag n.skipLen n.d n.u).2).bytes.length

/-- A varint that is present, and whose size is not a constant, keeps its size. -/
def SizeExact (n : Node) : Prop :=
  match n.fld with
  | .varint id ty c p =>
    (Fld.varint id ty c p).isStaticLen = false → p.hasVal n.d n.u = true →
      ty.SizeExact c (p.constVal n.u).toInt
  | _ => True

end Node

theorem Faithful.agrees {n : Node} {e : List UInt8}
    (h : Faithful (n.fld.wireSize n.skipTag n.skipLen n.d n.u)
      (n.fld.writeImpl n.skipTag n.skipLen n.d n.u) e) : n.Agrees := by
  have hw := h.write_eq []
  rw [List.append_nil] at hw
  rw [Node.Agrees, hw, h.size_eq]

/-- What `memcpy` puts out for a run of bytes whose length is kept in `pb_size_t`. -/
def copied (bs : List UInt8) : List UInt8 := bs.take (sizeT bs.length)

namespace Fld

theorem cutsAsCopied_copied : CutsAsCopied copied := fun _ _ => rfl

theorem exact_iff {n : Node} (hn : NodeOk wellFormed n) : n.Exact ↔ n.SizeExact := by
  obtain ⟨f, skipTag, skipLen, d, u⟩ := n
  obtain ⟨hq, hu, ht⟩ := hn
  cases f with
  | varint id ty c p =>
    have hpres : (skipTag || p.hasVal d u) = true ↔ p.hasVal d u = true := by
      rcases hasVal_cases (p := p) ht d u with h | ⟨h, hs, -⟩ <;> simp_all
    have hz : ty.zigzag = true → c.signed = true ∨ c = .bool := by
      intro hz
      have h : (c.signed || decide (c = .bool)) = true := by
        simp only [wellFormed, hz, Bool.and_eq_true] at hq
        exact hq.2
      simpa using h
    unfold Node.Exact Node.SizeExact
    simp only [hpres]
    refine forall_congr' fun _ => forall_congr' fun hv => ?_
    have hfit : (varint id ty c p).fitsVal (p.constVal u) = true :=
      fitsVal_constVal (f := varint id ty c p) (d := d) hu hv
    have hr : c.InRange (p.constVal u).toInt := by
      unfold fitsVal at hfit
      cases hc : p.constVal u <;> simp_all [Val.toInt]
    exact (sizeExact_iff hz hr).symm
  | _ => exact Iff.rfl

theorem length_appendVarint_le (zigzag : Bool) (c : CInt) (x : ℤ) :
    (appendVarint zigzag c x).length ≤ 10 := by
  by_cases hc : c = .bool
  · simp [appendVarint, hc]
  · rw [appendVarint_eq hc]
    exact length_encode_le (by omega) (lt_trans (varintUint_lt zigzag c x) (by norm_num))

theorem length_writeTag_le (skipTag : Bool) (id : ℕ) (wt : WireType) :
    (writeTag skipTag id wt).length ≤ 10 := by
  unfold writeTag
  split_ifs
  · simp
  · exact length_appendVarint_le _ _ _

/-- A number is short on the wire. -/
theorem length_wire_scalar_le (cut : List UInt8 → List UInt8) {f : Fld} (hp : f.isPacked = true)
    (skipTag : Bool) (d : List Val) (u : Val) : (f.wire cut skipTag false d u).length ≤ 20 := by
  cases f with
  | varint id ty c p =>
    rw [wire]
    split
    · have h1 := length_writeTag_le skipTag id .varint
      have h2 := length_appendVarint_le ty.zigzag ty.tar (ty.tar.cast (p.constVal u).toInt)
      rw [List.length_append]
      omega
    · simp
  | fixed id ty c p =>
    rw [wire]
    split
    · have h1 := length_writeTag_le skipTag id ty.wireType
      have h2 : ty.tar.bits / 8 ≤ 8 := by cases ty <;> decide
      rw [List.length_append, storeLe, LittleEndian.length_store]
      omega
    · simp
  | _ => simp [isPacked, wireType] at hp

section Enough

/- Sizes that are exact, on a value short enough, make the passes agree at every call. -/

variable {cut : List UInt8 → List UInt8}

/-- An element of a packed field is a single call, whatever the length of the field. -/
theorem nodes_agree_of_isPacked {elem : Fld} (he : elem.isElement = true)
    (hp : elem.isPacked = true) {v : Val} (hn : ∀ n ∈ elem.nodes elem.isPacked false [] v, n.Exact) :
    ∀ n ∈ elem.nodes elem.isPacked false [] v, n.Agrees := by
  have ho := isOptional_of_isElement he
  cases elem with
  | varint id ty c p =>
    simp only [nodes, List.mem_singleton, forall_eq] at hn ⊢
    exact Faithful.agrees (e := (varint id ty c p).wire copied _ false [] v)
      (varint_faithful (fun _ => ho) hn)
  | fixed id ty c p =>
    simp only [nodes, List.mem_singleton, forall_eq] at hn ⊢
    exact Faithful.agrees (n := ⟨fixed id ty c p, _, false, [], v⟩)
      (e := (fixed id ty c p).wire copied _ false [] v) (fixed_faithful fun _ => ho)
  | _ => simp [isPacked, wireType] at hp

theorem length_wire_elem_lt {elem : Fld} {vs : List Val} {v : Val} (hv : v ∈ vs)
    (hlt : (vs.map (elem.wire cut elem.isPacked false [])).flatten.length < 2 ^ 32) :
    (elem.wire cut elem.isPacked false [] v).length < 2 ^ 32 := by
  have hmem : elem.wire cut elem.isPacked false [] v ∈ vs.map (elem.wire cut elem.isPacked false []) :=
    List.mem_map_of_mem hv
  have := (List.sublist_flatten_of_mem hmem).length_le
  omega

theorem length_wires_lt {id : ℕ} {p : Params} {flds : List Fld} {skipTag skipLen : Bool}
    {d : List Val} {u : Val} (hv : (skipTag || p.hasVal d u) = true)
    (hlt : ((message id p flds).wire cut skipTag skipLen d u).length < 2 ^ 32) :
    (wires cut flds (p.constVal u).members (p.constVal u).members).length < 2 ^ 32 := by
  simp only [wire, hv, if_true, List.length_append] at hlt
  split_ifs at hlt
  · omega
  · simp only [delimited, List.length_append] at hlt
    omega

theorem message_agree {id : ℕ} {p : Params} {flds : List Fld} {skipTag skipLen : Bool}
    (ht : skipTag = true → p.isOptional = false) {d : List Val} {u : Val}
    (hself : Node.Agrees ⟨message id p flds, skipTag, skipLen, d, u⟩)
    (ih : ∀ f ∈ flds, ∀ u', f.fitsMember u' = true →
      (∀ n ∈ f.nodes false false (p.constVal u).members u', n.Exact) →
      (f.wire cut false false (p.constVal u).members u').length < 2 ^ 32 →
      ∀ n ∈ f.nodes false false (p.constVal u).members u', n.Agrees)
    (hu : (message id p flds).fitsMember u = true)
    (hn : ∀ n ∈ (message id p flds).nodes skipTag skipLen d u, n.Exact)
    (hlt : ((message id p flds).wire cut skipTag skipLen d u).length < 2 ^ 32) :
    ∀ n ∈ (message id p flds).nodes skipTag skipLen d u, n.Agrees := by
  simp only [nodes, List.mem_cons] at hn ⊢
  rintro n (rfl | h)
  · exact hself
  split_ifs at h with hv
  · have hfit := members_fit hu (hasVal_of_present (p := p) ht hv)
    obtain ⟨g, w, hsub, h⟩ := exists_subcall h
    have hex : ∀ n ∈ g.nodes false false (p.constVal u).members w, n.Exact := by
      intro n h
      apply hn n (Or.inr _)
      rw [if_pos hv]
      exact hsub.calls n h
    have hl := lt_of_le_of_lt (hsub.length_le cut) (length_wires_lt hv hlt)
    exact ih g hsub.mem w (hsub.fits hfit) hex hl n h
  · simp at h

theorem nodes_agree (hcut : CutsAsCopied cut) (f : Fld) (hf : f.wf = true) (skipTag : Bool)
    (ht : skipTag = true → f.isOptional = false) (d : List Val) (u : Val)
    (hu : f.fitsMember u = true) (hn : ∀ n ∈ f.nodes skipTag false d u, n.Exact)
    (hlt : (f.wire cut skipTag false d u).length < 2 ^ 32) :
    ∀ n ∈ f.nodes skipTag false d u, n.Agrees := by
  have hself : Node.Agrees ⟨f, skipTag, false, d, u⟩ :=
    (wire_faithful hcut f hf skipTag ht d u hu hn hlt).agrees
  induction f using ind generalizing skipTag d u with
  | varint | fixed | bytes => simpa [nodes] using hself
  | message id p flds ih =>
    have hwf := wf_message hf
    refine message_agree (p := p) ht hself ?_ hu hn hlt
    intro g hg w hw hex hl
    exact ih g hg (hwf g hg) false (by simp) _ w hw hex hl
      (wire_faithful hcut g (hwf g hg) false (by simp) _ w hw hex hl).agrees
  | repeated elem c p ih =>
    have hsub : ∀ v ∈ u.elems, ∀ n ∈ elem.nodes elem.isPacked false [] v, n.Exact :=
      fun v hv n h => hn n (nodes_of_mem_elems hv h)
    simp only [nodes, List.mem_cons, List.mem_flatten, List.mem_map]
    rintro n (rfl | ⟨l, ⟨v, hv, rfl⟩, h⟩)
    · exact hself
    obtain ⟨hwf, he, -⟩ := wf_repeated hf
    have hfit := fitsVal_repeated hf hu
    by_cases hpk : elem.isPacked = true
    · exact nodes_agree_of_isPacked he hpk (hsub v hv) n h
    · have hvfit := elems_fitMember he hfit v hv
      rw [wire, if_neg hpk] at hlt
      have hl := length_wire_elem_lt hv hlt
      have ho : elem.isPacked = true → elem.isOptional = false := fun _ => isOptional_of_isElement he
      exact ih hwf elem.isPacked ho [] v hvfit (hsub v hv) hl
        (wire_faithful hcut elem hwf elem.isPacked ho [] v hvfit (hsub v hv) hl).agrees n h
  | oneof p mems ih =>
    simp only [nodes, List.mem_cons] at hn ⊢
    rintro n (rfl | h)
    · exact hself
    obtain ⟨hwf, helem, -⟩ := wf_oneof hf
    have hfit := fitsVal_oneof hf hu
    rcases active_fits hfit with ⟨m, hact⟩ | ⟨i, m, hact, hm⟩
    · simp [hact] at h
    · obtain ⟨g, hg, hnodes, hfv, hwire⟩ := subcallAt hm
      simp only [hact, hnodes] at h hn
      simp only [wire, hact, hwire cut] at hlt
      have hex : ∀ n ∈ g.nodes false false [] m, n.Exact := fun n h => hn n (Or.inr h)
      have hgfit : g.fitsMember m = true := by
        rw [fitsMember_of_isElement (helem g hg)]
        exact hfv
      exact ih g hg (hwf g hg) false (by simp) [] m hgfit hex hlt
        (wire_faithful hcut g (hwf g hg) false (by simp) [] m hgfit hex hlt).agrees n h

/-- As `nodes_agree`, for a message at the top level. -/
theorem nodes_agree_top (hcut : CutsAsCopied cut) (s : Schema) (skipLen : Bool) {v : Val}
    (hv : s.fld.fitsVal v = true) (hn : ∀ n ∈ s.fld.nodes true skipLen [] v, n.Exact)
    (hlt : (s.fld.wire cut true skipLen [] v).length < 2 ^ 32) :
    ∀ n ∈ s.fld.nodes true skipLen [] v, n.Agrees := by
  have hroot : Node.Agrees ⟨s.fld, true, skipLen, [], v⟩ :=
    (wire_faithful_top hcut s skipLen hv hn hlt).agrees
  refine message_agree (fun _ => rfl) hroot ?_ hv hn hlt
  intro f hmem u hu hex hl
  exact nodes_agree hcut f (s.wf_flds f hmem) false (by simp) _ u hu hex hl

end Enough
section Needed

/- Where the passes agree at every call, the sizes are exact and nothing has wrapped around. -/

theorem writeSubs_writesAs {fs : List Fld} {d us : List Val}
    (ih : ∀ f ∈ fs, ∀ u, f.fitsMember u = true → (∀ n ∈ f.nodes false false d u, n.Agrees) →
      WritesAs (f.wireSize false false d u).2 (f.writeImpl false false d u)
        (f.wire copied false false d u))
    (hu : fits fs us = true) (hn : ∀ n ∈ nodesOf fs d us, n.Agrees) :
    WritesAs (subFldsLen fs d us).2 (writeSubs fs d us) (wires copied fs d us) := by
  induction fs generalizing us with
  | nil => exact fun _ => rfl
  | cons f fs ih' =>
    obtain ⟨u, vs, rfl, hf, hfs⟩ := fits_cons.mp hu
    simp only [nodesOf, List.mem_append, List.headD_cons, List.tail_cons] at hn
    have hone := ih f (by simp) u hf fun n h => hn n (Or.inl h)
    have hrest := ih' (fun g hg => ih g (by simp [hg])) hfs fun n h => hn n (Or.inr h)
    exact hone.append hrest

theorem writeElems_writesAs {sizes : Val → ℕ × List ℕ} {w : Val → List ℕ → Out}
    {wire : Val → List UInt8} {vs : List Val} (h : ∀ v ∈ vs, WritesAs (sizes v).2 (w v) (wire v)) :
    WritesAs (wireSizes sizes vs).2 (writeElems w vs) (vs.map wire).flatten := by
  induction vs with
  | nil => exact fun _ => rfl
  | cons v vs ih =>
    have hv := h v (by simp)
    have hvs := ih fun x hx => h x (by simp [hx])
    exact hv.append hvs

theorem wireSizes_fst_lt (sizes : Val → ℕ × List ℕ) (vs : List Val) :
    (wireSizes sizes vs).1 < 2 ^ 32 := by
  cases vs with
  | nil => simp [wireSizes]
  | cons v vs => exact Nat.mod_lt _ (by norm_num)

theorem bytes_message {id : ℕ} {p : Params} {flds : List Fld} {skipTag skipLen : Bool}
    {d : List Val} {u : Val} {e : List UInt8} (hv : p.hasVal d u = true)
    (hw : WritesAs (subFldsLen flds (p.constVal u).members (p.constVal u).members).2
      (writeSubs flds (p.constVal u).members (p.constVal u).members) e) :
    ((message id p flds).writeImpl skipTag skipLen d u
      ((message id p flds).wireSize skipTag skipLen d u).2).bytes =
      writeTag skipTag id .lenDlm ++ ((if skipLen then [] else appendVarint false .u32
        (subFldsLen flds (p.constVal u).members (p.constVal u).members).1) ++ e) := by
  generalize hlen : subFldsLen flds (p.constVal u).members (p.constVal u).members = len at hw
  have hnil := hw []
  rw [List.append_nil] at hnil
  by_cases hst : (message id p flds).isStaticLen = true
  · have hslots : len.2 = [] := by
      rw [← hlen]
      apply subFldsLen_snd_of_static
      simp [isStaticLen] at hst
      exact hst.2
    rw [hslots] at hnil
    simp only [wireSize, hst, if_true, writeImpl, hv, Bool.or_true, Out.raw, Out.andThen, hlen]
    split_ifs
    · simp [hnil]
    · simp [Out.lenStatic, Out.raw, Out.andThen, hnil]
  · simp only [wireSize, hst, Bool.false_eq_true, if_false, writeImpl, hv, Bool.or_true, if_true,
      Out.raw, Out.andThen, hlen]
    split_ifs
    · simp [hnil]
    · simp [Out.lenCached, hnil]

theorem lt_message {id : ℕ} {p : Params} {flds : List Fld} {skipTag skipLen : Bool}
    {d : List Val} {u : Val} (hv : p.hasVal d u = true)
    (hw : WritesAs (subFldsLen flds (p.constVal u).members (p.constVal u).members).2
      (writeSubs flds (p.constVal u).members (p.constVal u).members)
      (wires copied flds (p.constVal u).members (p.constVal u).members))
    (hsize : (wires copied flds (p.constVal u).members (p.constVal u).members).length < 2 ^ 32 →
      (subFldsLen flds (p.constVal u).members (p.constVal u).members).1 =
        (wires copied flds (p.constVal u).members (p.constVal u).members).length)
    (ha : Node.Agrees ⟨message id p flds, skipTag, skipLen, d, u⟩) :
    ((message id p flds).wire copied skipTag skipLen d u).length < 2 ^ 32 := by
  have hb := ha
  rw [Node.Agrees, bytes_message hv hw] at hb
  have hlt : ((message id p flds).wireSize skipTag skipLen d u).1 < 2 ^ 32 := by
    simp only [wireSize, hv, if_true]
    split <;> exact Nat.mod_lt _ (by norm_num)
  simp only [List.length_append] at hb
  have hsub : (wires copied flds (p.constVal u).members (p.constVal u).members).length < 2 ^ 32 := by
    omega
  rw [hsize hsub, appendVarint_u32 hsub] at hb
  simp only [wire, hv, Bool.or_true, if_true, List.length_append]
  split_ifs at hb ⊢
  · simp at hb
    omega
  · simp only [delimited, List.length_append]
    omega

theorem bytes_packed {elem : Fld} {c : Container} {p : Params} {skipTag : Bool} {d : List Val}
    {u : Val} (he : elem.isElement = true) (hp : elem.isPacked = true)
    (hcount : c.count u = u.elems.length)
    (hw : WritesAs (wireSizes (elem.wireSize elem.isPacked false []) u.elems).2
      (writeElems (elem.writeImpl elem.isPacked false []) u.elems)
      (u.elems.map (elem.wire copied elem.isPacked false [])).flatten) :
    ((repeated elem c p).writeImpl skipTag false d u
      ((repeated elem c p).wireSize skipTag false d u).2).bytes =
      writeTag skipTag elem.id .lenDlm ++ (appendVarint false .u32
        (wireSizes (elem.wireSize elem.isPacked false []) u.elems).1 ++
          packedPayload copied elem c u.elems) := by
  have hsum := elemsLen_eq elem hcount
  have hnil : ∀ v, (elem.wireSize elem.isPacked false [] v).2 = [] := fun v =>
    wireSize_snd_of_isPacked hp _ _ _ v
  have hslots : (wireSizes (elem.wireSize elem.isPacked false []) u.elems).2 = [] := by
    apply List.eq_nil_of_length_eq_zero
    rw [length_wireSizes_snd (fun _ => 0) fun v _ => by simp [hnil v]]
    simp
  have hpay : ∀ lc, (writePacked elem c u.elems
      (wireSizes (elem.wireSize elem.isPacked false []) u.elems).1 lc).bytes =
      packedPayload copied elem c u.elems := by
    intro lc
    have hl := hw lc
    rw [hslots, List.nil_append] at hl
    unfold writePacked packedPayload
    split_ifs with hs
    · have hst := isStaticLen_of_sameAsWireLayout hs he
      rw [if_pos hst, hcount, ← length_objectBytes hs he] at hsum
      rw [← hsum]
      rfl
    · rw [hl]
  rw [writeImpl_packed hp, wireSize_packed hp hcount]
  by_cases hst : elem.isStaticLen = true
  · rw [if_pos hst] at hsum
    have hstatic : elem.packedStaticLen c u =
        (wireSizes (elem.wireSize elem.isPacked false []) u.elems).1 := congrArg Prod.fst hsum
    simp only [hst, if_true, Out.raw, Out.andThen, Out.lenStatic, hstatic, hpay]
  · simp only [hst, Bool.false_eq_true, if_false, Bool.or_false, Out.raw, Out.andThen,
      Out.lenCached, List.headD_cons, hpay]

theorem lt_repeated {elem : Fld} {c : Container} {p : Params} {skipTag : Bool} {d : List Val}
    {u : Val} (he : elem.isElement = true) (hcount : c.count u = u.elems.length)
    (hfaith : elem.isPacked = true → ∀ v ∈ u.elems,
      Faithful (elem.wireSize elem.isPacked false [] v) (elem.writeImpl elem.isPacked false [] v)
        (elem.wire copied elem.isPacked false [] v))
    (hw : WritesAs (wireSizes (elem.wireSize elem.isPacked false []) u.elems).2
      (writeElems (elem.writeImpl elem.isPacked false []) u.elems)
      (u.elems.map (elem.wire copied elem.isPacked false [])).flatten)
    (ha : Node.Agrees ⟨repeated elem c p, skipTag, false, d, u⟩) :
    ((repeated elem c p).wire copied skipTag false d u).length < 2 ^ 32 := by
  by_cases hp : elem.isPacked = true
  · have hb := ha
    rw [Node.Agrees, bytes_packed he hp hcount hw, wireSize_packed hp hcount] at hb
    have hlt : lenDlmWireSize skipTag false elem.id
        (wireSizes (elem.wireSize elem.isPacked false []) u.elems).1 < 2 ^ 32 :=
      Nat.mod_lt _ (by norm_num)
    simp only [List.length_append] at hb
    have hpay : (packedPayload copied elem c u.elems).length < 2 ^ 32 := by omega
    have hsize := (writePacked_faithful cutsAsCopied_copied he hcount
      (fun v hv _ => hfaith hp v hv) hpay).size_eq
    rw [hsize, appendVarint_u32 hpay] at hb
    have hwire : (repeated elem c p).wire copied skipTag false d u =
        writeTag skipTag elem.id .lenDlm ++ delimited (packedPayload copied elem c u.elems) := by
      rw [wire, if_pos hp, packedPayload]
    rw [hwire, delimited, List.length_append, List.length_append]
    rw [hsize] at hlt
    omega
  · have hl := hw []
    have hb := ha
    have hwr : (repeated elem c p).writeImpl skipTag false d u =
        writeElems (elem.writeImpl elem.isPacked false []) u.elems := by
      funext lc
      simp [writeImpl, hp]
    have hsz : (repeated elem c p).wireSize skipTag false d u =
        wireSizes (elem.wireSize elem.isPacked false []) u.elems := by
      simp only [wireSize]
      rw [elemsLen_eq elem hcount, if_neg hp]
    rw [List.append_nil] at hl
    rw [Node.Agrees, hwr, hsz, hl] at hb
    rw [wire, if_neg hp]
    change _ = (u.elems.map (elem.wire copied elem.isPacked false [])).flatten.length at hb
    rw [← hb]
    exact wireSizes_fst_lt _ _

theorem message_exact {id : ℕ} {p : Params} {flds : List Fld} {skipTag skipLen : Bool}
    (hf : ∀ f ∈ flds, f.wf = true) (ht : skipTag = true → p.isOptional = false) {d : List Val}
    {u : Val}
    (ih : ∀ f ∈ flds, ∀ u', f.fitsMember u' = true →
      (∀ n ∈ f.nodes false false (p.constVal u).members u', n.Agrees) →
      (∀ n ∈ f.nodes false false (p.constVal u).members u', n.Exact) ∧
        (f.wire copied false false (p.constVal u).members u').length < 2 ^ 32)
    (hu : (message id p flds).fitsMember u = true)
    (hn : ∀ n ∈ (message id p flds).nodes skipTag skipLen d u, n.Agrees) :
    (∀ n ∈ (message id p flds).nodes skipTag skipLen d u, n.Exact) ∧
      ((message id p flds).wire copied skipTag skipLen d u).length < 2 ^ 32 := by
  rcases hasVal_cases ht d u with hv | ⟨hv, hs, -⟩
  · simp only [nodes, List.mem_cons, hv, Bool.or_true, if_true] at hn ⊢
    have hfit := members_fit hu hv
    have hsub : ∀ n ∈ nodesOf flds (p.constVal u).members (p.constVal u).members, n.Agrees :=
      fun n h => hn n (Or.inr h)
    have hex : ∀ n ∈ nodesOf flds (p.constVal u).members (p.constVal u).members, n.Exact := by
      intro n h
      obtain ⟨f, v, hcall, h⟩ := exists_subcall h
      exact (ih f hcall.mem v (hcall.fits hfit) fun n h => hsub n (hcall.calls n h)).1 n h
    have hone : ∀ f ∈ flds, ∀ v, f.fitsMember v = true →
        (∀ n ∈ f.nodes false false (p.constVal u).members v, n.Agrees) →
        Faithful (f.wireSize false false (p.constVal u).members v)
          (f.writeImpl false false (p.constVal u).members v)
          (f.wire copied false false (p.constVal u).members v) := by
      intro f hmem v hvf ha
      obtain ⟨hex, hlt⟩ := ih f hmem v hvf ha
      exact wire_faithful cutsAsCopied_copied f (hf f hmem) false (by simp) _ v hvf hex hlt
    refine ⟨?_, ?_⟩
    · rintro n (rfl | h)
      · trivial
      · exact hex n h
    · apply lt_message hv _ _ (hn _ (Or.inl rfl))
      · exact writeSubs_writesAs (fun f hmem v hvf ha => (hone f hmem v hvf ha).write_eq) hfit hsub
      · intro hlt
        have hall := wires_faithful (fun f hmem v hvf hex' hl =>
          wire_faithful cutsAsCopied_copied f (hf f hmem) false (by simp) _ v hvf hex' hl)
          hfit hex hlt
        exact hall.size_eq
  · simp only [nodes, wire, hv, hs, Bool.or_self, Bool.false_eq_true, if_false, List.mem_singleton,
      forall_eq]
    exact ⟨trivial, by simp⟩

theorem exact_of_agrees (f : Fld) (hf : f.wf = true) (skipTag : Bool)
    (ht : skipTag = true → f.isOptional = false) (d : List Val) (u : Val)
    (hu : f.fitsMember u = true) (hn : ∀ n ∈ f.nodes skipTag false d u, n.Agrees) :
    (∀ n ∈ f.nodes skipTag false d u, n.Exact) ∧ (f.wire copied skipTag false d u).length < 2 ^ 32 := by
  induction f using ind generalizing skipTag d u with
  | varint id ty c p =>
    simp only [nodes, List.mem_singleton, forall_eq] at hn ⊢
    refine ⟨?_, ?_⟩
    · intro hst hv
      have hhas := hasVal_of_present (p := p) ht hv
      simpa [Node.Agrees, wireSize, hst, hhas, writeImpl, Out.raw, length_writeTag] using hn
    · have hp : (varint id ty c p).isPacked = true := rfl
      exact lt_of_le_of_lt (length_wire_scalar_le _ hp skipTag d u) (by norm_num)
  | fixed id ty c p =>
    simp only [nodes, List.mem_singleton, forall_eq] at hn ⊢
    have hp : (fixed id ty c p).isPacked = true := by cases ty <;> rfl
    exact ⟨trivial, lt_of_le_of_lt (length_wire_scalar_le _ hp skipTag d u) (by norm_num)⟩
  | bytes id b p =>
    simp only [nodes, List.mem_singleton, forall_eq] at hn ⊢
    refine ⟨trivial, ?_⟩
    by_cases hv : (bytes id b p).hasVal d u = true
    · generalize hbs : ((bytes id b p).constVal u).toBytes = bs
      have hlt : sizeT bs.length < 2 ^ 32 := Nat.mod_lt _ (by norm_num)
      have hw : (lenDlmWireSize skipTag false id (sizeT bs.length)) < 2 ^ 32 :=
        Nat.mod_lt _ (by norm_num)
      simp only [Node.Agrees, wireSize, hv, if_true, writeImpl, Out.raw, hbs, List.length_append,
        appendVarint_u32 hlt, length_take_sizeT] at hn
      simp only [wire, hv, if_true, hbs, copied, delimited, List.length_append, length_take_sizeT]
      omega
    · simp [wire, hv]
  | message id p flds ih =>
    have hwf := wf_message hf
    exact message_exact hwf (p := p) ht
      (fun f hmem v hvf ha => ih f hmem (hwf f hmem) false (by simp) _ v hvf ha) hu hn
  | repeated elem c p ih =>
    obtain ⟨hwf, he, -⟩ := wf_repeated hf
    have hfit := fitsVal_repeated hf hu
    have hopt : elem.isPacked = true → elem.isOptional = false := fun _ => isOptional_of_isElement he
    have hone : ∀ v ∈ u.elems, (∀ n ∈ elem.nodes elem.isPacked false [] v, n.Exact) ∧
        Faithful (elem.wireSize elem.isPacked false [] v) (elem.writeImpl elem.isPacked false [] v)
          (elem.wire copied elem.isPacked false [] v) := by
      intro v hv
      have hvfit := elems_fitMember he hfit v hv
      obtain ⟨hex, hlt⟩ := ih hwf elem.isPacked hopt [] v hvfit
        fun n h => hn n (nodes_of_mem_elems hv h)
      exact ⟨hex, wire_faithful cutsAsCopied_copied elem hwf elem.isPacked hopt [] v hvfit hex hlt⟩
    refine ⟨?_, ?_⟩
    · simp only [nodes, List.mem_cons, List.mem_flatten, List.mem_map]
      rintro n (rfl | ⟨l, ⟨v, hv, rfl⟩, h⟩)
      · trivial
      · exact (hone v hv).1 n h
    · apply lt_repeated he (count_eq hfit) (fun _ v hv => (hone v hv).2) _ (hn _ (by simp [nodes]))
      exact writeElems_writesAs fun v hv => (hone v hv).2.write_eq
  | oneof p mems ih =>
    obtain ⟨hwf, helem, -⟩ := wf_oneof hf
    have hfit := fitsVal_oneof hf hu
    simp only [nodes, List.mem_cons] at hn ⊢
    rcases active_fits hfit with ⟨m, hact⟩ | ⟨i, m, hact, hm⟩
    · simp [hact, wire, Node.Exact]
    · obtain ⟨g, hg, hnodes, hfv, hwire⟩ := subcallAt hm
      simp only [hact, wire, hnodes, hwire] at hn ⊢
      have hgfit : g.fitsMember m = true := by
        rw [fitsMember_of_isElement (helem g hg)]
        exact hfv
      have hat := ih g hg (hwf g hg) false (by simp) [] m hgfit fun n h => hn n (Or.inr h)
      refine ⟨?_, hat.2⟩
      intro n h
      cases h with
      | inl h =>
        rw [h]
        trivial
      | inr h => exact hat.1 n h

end Needed

/-- The two passes agree at every call, and hence on the whole buffer, exactly where each varint
keeps its size under the conversion and the encoding is shorter than `pb_size_t` can say. -/
theorem sizing_agrees_iff (s : Schema) (skipLen : Bool) (v : Val) (hv : s.fld.fitsVal v = true) :
    ((∀ n ∈ s.fld.nodes true skipLen [] v, n.Agrees) ∧
      (s.fld.doWrite true skipLen v).out.bytes.length = (s.fld.doWrite true skipLen v).total) ↔
      (∀ n ∈ s.fld.nodes true skipLen [] v, n.SizeExact) ∧
        (s.fld.wire copied true skipLen [] v).length < 2 ^ 32 := by
  have hok := nodes_ok s.fld s.wf s.wf true skipLen (fun _ => rfl) [] v hv
  have hexact : (∀ n ∈ s.fld.nodes true skipLen [] v, n.SizeExact) ↔
      ∀ n ∈ s.fld.nodes true skipLen [] v, n.Exact :=
    forall₂_congr fun n h => (exact_iff (hok n h)).symm
  rw [hexact]
  constructor
  · rintro ⟨ha, -⟩
    exact message_exact s.wf_flds (fun _ => rfl)
      (fun f hmem u hu hn => exact_of_agrees f (s.wf_flds f hmem) false (by simp) _ u hu hn) hv ha
  · rintro ⟨hn, hlt⟩
    have ha := nodes_agree_top cutsAsCopied_copied s skipLen hv hn hlt
    have hroot : Node.Agrees ⟨s.fld, true, skipLen, [], v⟩ :=
      (wire_faithful_top cutsAsCopied_copied s skipLen hv hn hlt).agrees
    exact ⟨ha, hroot.symm⟩

end Fld

/-- `pb_uint32<"n", 1>` over an `int32_t`. -/
def uint32OverInt32 : Schema := ⟨[.varint 1 .uint32 .i32 .null], none, by decide⟩

theorem sizing_agrees_uint32OverInt32 :
    uint32OverInt32.fld.fitsVal (.msg [.int 300]) = true ∧
      (((∀ n ∈ uint32OverInt32.fld.nodes true true [] (.msg [.int 300]), n.Agrees) ∧
        (uint32OverInt32.fld.doWrite true true (.msg [.int 300])).out.bytes.length =
          (uint32OverInt32.fld.doWrite true true (.msg [.int 300])).total) ↔
      (∀ n ∈ uint32OverInt32.fld.nodes true true [] (.msg [.int 300]), n.SizeExact) ∧
        (uint32OverInt32.fld.wire copied true true [] (.msg [.int 300])).length < 2 ^ 32) :=
  ⟨by decide, Fld.sizing_agrees_iff uint32OverInt32 true (.msg [.int 300]) (by decide)⟩

/-- A negative number is measured as ten bytes and written as five. -/
theorem sizing_disagrees_uint32OverInt32 :
    uint32OverInt32.fld.fitsVal (.msg [.int (-1)]) = true ∧
      (uint32OverInt32.fld.doWrite true true (.msg [.int (-1)])).total = 11 ∧
      (uint32OverInt32.fld.doWrite true true (.msg [.int (-1)])).out.bytes.length = 6 ∧
      ¬((∀ n ∈ uint32OverInt32.fld.nodes true true [] (.msg [.int (-1)]), n.Agrees) ∧
        (uint32OverInt32.fld.doWrite true true (.msg [.int (-1)])).out.bytes.length =
          (uint32OverInt32.fld.doWrite true true (.msg [.int (-1)])).total) := by
  have htotal : (uint32OverInt32.fld.doWrite true true (.msg [.int (-1)])).total = 11 := by
    decide +kernel
  have hbytes : (uint32OverInt32.fld.doWrite true true (.msg [.int (-1)])).out.bytes.length = 6 := by
    decide +kernel
  refine ⟨by decide, htotal, hbytes, ?_⟩
  rintro ⟨-, h⟩
  rw [htotal, hbytes] at h
  simp at h

end Jkl.Pb
