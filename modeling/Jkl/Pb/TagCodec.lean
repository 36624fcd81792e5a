import Jkl.Pb.Blocks

/-! The two tag codecs of `pb_fld`, of which `_JKL_PB_USE_RUNTIME_TAG_CODEC` selects one. -/
namespace Jkl.Pb
open Base128

/-- `f_tag`, computed in `uint32_t`. -/
def fTag (id : ℕ) (wt : WireType) : ℕ := mkTag id wt % 2 ^ 32

theorem fTag_lt (id : ℕ) (wt : WireType) : fTag id wt < 2 ^ 32 := Nat.mod_lt _ (by decide)

theorem fTag_of_lt {id : ℕ} (h : id < 2 ^ 29) (wt : WireType) : fTag id wt = mkTag id wt :=
  Nat.mod_eq_of_lt (mkTag_lt h wt)

/-- The constant `varint_bytes<V>`: an array of `varint_wire_size(V)` bytes. It is a constant
expression only if `append_varint` fills all of them and writes no other. -/
def constVarintBytes (u : ℕ) : Option (List UInt8) :=
  if (appendVarint false .u32 u).length = varintWireSize false .u32 u then some (varintBytes u)
  else none

theorem constVarintBytes_eq (u : ℕ) : constVarintBytes u = some (varintBytes u) :=
  if_pos (length_appendVarint _ _ _)

inductive TagCodec where
  | runtime
  | compileTime
deriving DecidableEq, Repr

namespace TagCodec

/-- What `write_tag` puts at `b`; it returns the position behind it. -/
def writeTag (codec : TagCodec) (id : ℕ) (wt : WireType) : Option (List UInt8) :=
  match codec with
  | runtime => some (appendVarint false .u32 (fTag id wt))
  | compileTime => constVarintBytes (fTag id wt)

/-- `exam_tag` on the bytes of `[beg, end)`. -/
def examTag (codec : TagCodec) (id : ℕ) (wt : WireType) (range : List UInt8) : Scan Unit :=
  match codec with
  | runtime =>
    match readVarint false .u32 range range.length with
    | .ok n tag => if tag ≠ fTag id wt then .err .tagMismatch else .ok n ()
    | .err e => .err e
    | .stop s => .stop s
  | compileTime =>
    match startsWithVarintBytes (fTag id wt) range range.length with
    | some n => .ok n ()
    | none => .err .tagMismatch

theorem writeTag_eq (codec : TagCodec) (id : ℕ) (wt : WireType) :
    codec.writeTag id wt = some (encode (fTag id wt)) := by
  cases codec with
  | runtime => rw [writeTag, appendVarint_u32 (fTag_lt id wt)]
  | compileTime => rw [writeTag, constVarintBytes_eq, varintBytes_eq (fTag_lt id wt)]

theorem readVarint_u32_eq_ok {mem : List UInt8} {lim n : ℕ} {v : ℤ} :
    readVarint false .u32 mem lim = .ok n v ↔
      ∃ u : ℕ, v = u ∧ readVarintUint 32 mem lim = .ok n u := by
  have hbits : varintUintBits false .u32 = 32 := rfl
  unfold readVarint
  rw [if_neg (by decide), hbits]
  cases h : readVarintUint 32 mem lim with
  | ok k u =>
    obtain ⟨p, rest, -, ⟨-, -, hval⟩, -, -, rfl⟩ := readVarintUint_eq_ok.mp h
    have hcast : CInt.cast .u32 (value p : ℤ) = value p :=
      CInt.cast_of_inRange (by simp [CInt.InRange, CInt.signed, CInt.bits]; omega)
    simp only [Bool.false_eq_true, if_false, hcast, Res.ok.injEq]
    constructor
    · rintro ⟨rfl, rfl⟩
      exact ⟨_, rfl, rfl, rfl⟩
    · rintro ⟨u, rfl, rfl, rfl⟩
      exact ⟨rfl, rfl⟩
  | err e => simp
  | stop s => simp

/-- The run-time codec accepts any numeral of the tag's value that fits 32 bits. -/
theorem examTag_runtime {id : ℕ} {wt : WireType} {range : List UInt8} {n : ℕ} :
    runtime.examTag id wt range = .ok n () ↔
      ∃ p rest, range = p ++ rest ∧ Numeral 32 p ∧ value p = fTag id wt ∧ n = p.length := by
  have hread : runtime.examTag id wt range = .ok n () ↔
      readVarint false .u32 range range.length = .ok n (fTag id wt) := by
    unfold examTag
    cases readVarint false .u32 range range.length with
    | ok k tag => by_cases htag : tag = fTag id wt <;> simp [htag]
    | err e => simp
    | stop s => simp
  rw [hread, readVarint_u32_eq_ok]
  constructor
  · intro h
    obtain ⟨u, hu, hok⟩ := h
    obtain ⟨p, rest, hrange, hp, -, hn, hv⟩ := readVarintUint_eq_ok.mp hok
    exact ⟨p, rest, hrange, hp, by rw [← hv]; exact_mod_cast hu.symm, hn⟩
  · intro h
    obtain ⟨p, rest, hrange, hp, hv, hn⟩ := h
    refine ⟨fTag id wt, rfl, readVarintUint_eq_ok.mpr ⟨p, rest, hrange, hp, ?_, hn, hv.symm⟩⟩
    simp [hrange]

/-- The compile-time codec wants another byte behind the tag. -/
theorem examTag_compileTime {id : ℕ} {wt : WireType} {range : List UInt8} {n : ℕ} :
    compileTime.examTag id wt range = .ok n () ↔
      ∃ rest, rest ≠ [] ∧ range = encode (fTag id wt) ++ rest ∧
        n = (encode (fTag id wt)).length := by
  simp only [examTag, startsWithVarintBytes, varintBytes_eq (fTag_lt id wt)]
  constructor
  · intro h
    split_ifs at h with hc
    · obtain ⟨hlen, htake⟩ := hc
      refine ⟨range.drop (encode (fTag id wt)).length, ?_, ?_, by simpa using h.symm⟩
      · simpa using hlen
      · conv_lhs => rw [← List.take_append_drop (encode (fTag id wt)).length range, htake]
  · rintro ⟨rest, hrest, rfl, rfl⟩
    have := List.length_pos_of_ne_nil hrest
    rw [if_pos (by simpa using this)]

/-- The codec in front of the later elements of a run is the compile-time one. -/
theorem reader_examTag {elem : Fld} (hp : elem.isPacked = false) (hid : elem.id < 2 ^ 29)
    (range : List UInt8) (n : ℕ) :
    Jkl.Pb.examTag elem false range range.length = some n ↔
      compileTime.examTag elem.id elem.wireType range = .ok n () := by
  simp only [Jkl.Pb.examTag, hp, Bool.or_self, Bool.false_eq_true, if_false, examTag,
    fTag_of_lt hid, Fld.tag]
  cases startsWithVarintBytes (mkTag elem.id elem.wireType) range range.length <;> simp

end TagCodec

/-- What the codecs owe each other on one range: a tag in its canonical encoding is accepted with
the position behind it, a varint of another value is not, and `write_tag` writes the same. -/
structure TagCodecsAgree (id : ℕ) (wt : WireType) (range : List UInt8) : Prop where
  accepts : ∀ codec : TagCodec, ∀ rest, range = encode (fTag id wt) ++ rest →
    codec.examTag id wt range = .ok (encode (fTag id wt)).length ()
  rejects : ∀ codec : TagCodec, ∀ p rest, range = p ++ rest → Complete p →
    value p ≠ fTag id wt → ∀ n, codec.examTag id wt range ≠ .ok n ()
  writes : ∃ bytes, ∀ codec : TagCodec, codec.writeTag id wt = some bytes

namespace TagCodec

theorem runtime_accepts {id : ℕ} {wt : WireType} {range rest : List UInt8}
    (h : range = encode (fTag id wt) ++ rest) :
    runtime.examTag id wt range = .ok (encode (fTag id wt)).length () :=
  examTag_runtime.mpr ⟨_, rest, h, numeral_encode (fTag_lt id wt), value_encode _, rfl⟩

/-- No codec takes a varint of another value for the tag: numerals are prefix-free. -/
theorem examTag_ne_ok {id : ℕ} {wt : WireType} {range p rest : List UInt8} (codec : TagCodec)
    (h : range = p ++ rest) (hp : Complete p) (hv : value p ≠ fTag id wt) (n : ℕ) :
    codec.examTag id wt range ≠ .ok n () := by
  intro hok
  apply hv
  cases codec with
  | runtime =>
    obtain ⟨q, rest', hq, ⟨hcomplete, -, -⟩, hval, -⟩ := examTag_runtime.mp hok
    obtain ⟨rfl, -⟩ := hp.append_inj hcomplete (h.symm.trans hq)
    exact hval
  | compileTime =>
    obtain ⟨rest', -, hq, -⟩ := examTag_compileTime.mp hok
    obtain ⟨rfl, -⟩ := hp.append_inj (complete_encode _) (h.symm.trans hq)
    exact value_encode _

end TagCodec

/-- The codecs agree unless the range ends right behind the tag: there the compile-time codec
rejects what the other accepts. -/
theorem tagCodecsAgree_iff (id : ℕ) (wt : WireType) (range : List UInt8) :
    TagCodecsAgree id wt range ↔ range ≠ encode (fTag id wt) := by
  constructor
  · rintro h rfl
    obtain ⟨rest, hrest, heq, -⟩ := TagCodec.examTag_compileTime.mp
      (h.accepts .compileTime [] (List.append_nil _).symm)
    exact hrest (by simpa using heq)
  · intro hne
    refine ⟨?_, fun codec p rest => codec.examTag_ne_ok, _, fun codec => codec.writeTag_eq id wt⟩
    intro codec rest h
    cases codec with
    | runtime => exact TagCodec.runtime_accepts h
    | compileTime =>
      refine TagCodec.examTag_compileTime.mpr ⟨rest, ?_, h, rfl⟩
      rintro rfl
      exact hne (h.trans (List.append_nil _))

/-- Field 1 as a varint, and nothing behind its tag. -/
theorem not_tagCodecsAgree_lone : ¬ TagCodecsAgree 1 .varint [0x08] := by
  intro h
  have htag : encode (fTag 1 .varint) = [0x08] := by
    rw [show fTag 1 .varint = 8 from rfl, encode_of_lt (by decide)]
    rfl
  have hexam : TagCodec.compileTime.examTag 1 .varint [0x08] = .err .tagMismatch := by decide
  have haccepts := h.accepts .compileTime [] (by rw [htag]; rfl)
  rw [hexam] at haccepts
  cases haccepts

end Jkl.Pb
