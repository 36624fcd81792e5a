import Jkl.Pb.Varint
import Mathlib.Tactic.Linarith
import Mathlib.Tactic.Ring

/-! What the varint codec computes, in terms of base-128 numerals. -/
namespace Jkl.Pb
open Base128

theorem or_shiftLeft {u s : ℕ} (h : u < 2 ^ s) (t : ℕ) : u ||| t <<< s = u + 2 ^ s * t := by
  rw [Nat.or_comm, ← Nat.shiftLeft_add_eq_or_of_lt h, Nat.shiftLeft_eq]
  ring

theorem and_0x7f (t : ℕ) : t &&& 0x7f = t % 128 := Nat.and_two_pow_sub_one_eq_mod t 7

theorem appendGroups_eq {k u : ℕ} (h : u < 128 ^ k) : 0 < k → appendGroups k u = encode u := by
  intro hk
  induction k generalizing u with
  | zero => omega
  | succ k ih =>
    unfold appendGroups
    by_cases hu : 0x80 ≤ u
    · have hb : UInt8.ofNat (u ||| 0x80) = UInt8.ofNat (u % 128 + 128) := by
        apply UInt8.toNat_inj.mp
        have hor : (u ||| 0x80) % 256 = u % 256 ||| 0x80 := Nat.or_mod_two_pow (n := 8)
        have hlow : ∀ i : Fin 256, (i.val ||| 0x80) = i.val % 128 + 128 := by decide +kernel
        have := hlow ⟨u % 256, Nat.mod_lt _ (by omega)⟩
        rw [UInt8.toNat_ofNat', UInt8.toNat_ofNat']
        simp only [Nat.reducePow] at hor this ⊢
        omega
      have hs : u >>> 7 = u / 128 := Nat.shiftRight_eq_div_pow u 7
      have hk0 : 0 < k := by
        rcases Nat.eq_zero_or_pos k with rfl | hk0
        · simp at h; omega
        · exact hk0
      rw [if_pos hu, encode_of_le hu, hb, hs, ih (by rw [pow_succ] at h; omega) hk0]
    · rw [if_neg hu, encode_of_lt (by omega)]

theorem fastBits_le (bits : ℕ) : fastBits bits ≤ 64 := by
  unfold fastBits; split <;> omega

theorem le_fastBits (c : CInt) : c.bits ≤ fastBits c.bits := by
  cases c <;> decide

theorem varintUintBits_le (zigzag : Bool) (c : CInt) : varintUintBits zigzag c ≤ 64 := by
  cases zigzag <;> cases c <;> decide

theorem varintUint_lt (zigzag : Bool) (c : CInt) (x : ℤ) : varintUint zigzag c x < 2 ^ 64 := by
  have hp : ∀ bits, 2 ^ fastBits bits ≤ 2 ^ 64 := fun bits =>
    Nat.pow_le_pow_right (by omega) (fastBits_le bits)
  unfold varintUint
  split
  · exact lt_of_lt_of_le (BitVec.isLt _) (hp _)
  · have hlt := Int.emod_lt_of_pos x (by positivity : (0 : ℤ) < 2 ^ fastBits (varintUintBits false c))
    have := hp (varintUintBits false c)
    zify at this ⊢
    rw [Int.toNat_of_nonneg (Int.emod_nonneg x (by positivity))]
    omega

theorem appendVarint_eq {c : CInt} (hc : c ≠ .bool) (zigzag : Bool) (x : ℤ) :
    appendVarint zigzag c x = encode (varintUint zigzag c x) := by
  rw [appendVarint, if_neg hc]
  exact appendGroups_eq (lt_trans (varintUint_lt zigzag c x) (by norm_num)) (by omega)

theorem or_one (u : ℕ) : u ||| 1 = 2 * (u / 2) + 1 := by
  have hu : u % 2 ||| (u / 2) <<< 1 = u := by
    rw [or_shiftLeft (by omega : u % 2 < 2 ^ 1)]
    omega
  have hb : u % 2 ||| 1 = 1 := by
    rcases Nat.mod_two_eq_zero_or_one u with h | h <;> rw [h] <;> rfl
  calc
    u ||| 1 = (u % 2 ||| (u / 2) <<< 1) ||| 1 := by rw [hu]
    _ = 1 ||| (u / 2) <<< 1 := by rw [Nat.or_assoc, Nat.or_comm _ 1, ← Nat.or_assoc, hb]
    _ = 2 * (u / 2) + 1 := by rw [or_shiftLeft (by omega), add_comm, pow_one]

theorem log2_or_one (u : ℕ) : (u ||| 1).log2 = u.log2 := by
  rcases Nat.lt_or_ge u 2 with hu | hu
  · have : u = 0 ∨ u = 1 := by omega
    rcases this with rfl | rfl <;> rfl
  · rw [or_one, Nat.log2_def, Nat.log2_def u, if_pos (by omega), if_pos hu]
    congr 2
    omega

theorem varintWireSize_eq {c : CInt} (hc : c ≠ .bool) (zigzag : Bool) (x : ℤ) :
    varintWireSize zigzag c x = (encode (varintUint zigzag c x)).length := by
  rw [varintWireSize, if_neg hc, length_encode_eq_log2, log2_or_one]
  omega

theorem length_appendVarint (zigzag : Bool) (c : CInt) (x : ℤ) :
    (appendVarint zigzag c x).length = varintWireSize zigzag c x := by
  by_cases hc : c = .bool
  · simp [appendVarint, varintWireSize, hc]
  · rw [appendVarint_eq hc, varintWireSize_eq hc]

theorem toInt_ofInt_of_inRange {c : CInt} {x : ℤ} (hs : c.signed = true) (h : c.InRange x) :
    (BitVec.ofInt (fastBits c.bits) x).toInt = x := by
  cases c <;> simp [CInt.signed, CInt.InRange, CInt.bits] at hs h <;>
    simp [fastBits, CInt.bits, BitVec.toInt_ofInt, Int.bmod_def] <;> omega

/-- The arithmetic right shift leaves the sign alone. -/
theorem sshiftRight_sign {c : CInt} {x : ℤ} (hs : c.signed = true) (h : c.InRange x) :
    (BitVec.ofInt (fastBits c.bits) x).sshiftRight (c.bits - 1) =
      if 0 ≤ x then 0 else BitVec.allOnes _ := by
  apply BitVec.eq_of_toInt_eq
  rw [BitVec.toInt_sshiftRight, toInt_ofInt_of_inRange hs h, Int.shiftRight_eq_div_pow]
  cases c <;> simp [CInt.signed, CInt.InRange, CInt.bits] at hs h <;>
    split_ifs <;> simp [CInt.bits, fastBits] <;> omega

theorem zigzagEncode_eq {c : CInt} {x : ℤ} (hs : c.signed = true) (h : c.InRange x) :
    (zigzagEncode c x : ℤ) = if 0 ≤ x then 2 * x else -2 * x - 1 := by
  simp only [zigzagEncode, sshiftRight_sign hs h]
  split_ifs with hx
  · rw [BitVec.ofNat_eq_ofNat, BitVec.xor_zero, BitVec.toNat_shiftLeft, BitVec.toNat_ofInt]
    cases c <;> simp [CInt.signed, CInt.InRange, CInt.bits] at hs h <;>
      simp [CInt.bits, fastBits, Nat.shiftLeft_eq] <;> omega
  · rw [BitVec.xor_allOnes, BitVec.toNat_not, BitVec.toNat_shiftLeft, BitVec.toNat_ofInt]
    cases c <;> simp [CInt.signed, CInt.InRange, CInt.bits] at hs h <;>
      simp [CInt.bits, fastBits, Nat.shiftLeft_eq] <;> omega

/-- `~(u & 1) + 1` is all zeros or all ones. -/
theorem zigzagDecode_eq {bits u : ℕ} (hb : 1 < fastBits bits) (hu : u < 2 ^ fastBits bits) :
    zigzagDecode bits u = if u % 2 = 0 then u / 2 else 2 ^ fastBits bits - 1 - u / 2 := by
  have h1 : (1#(fastBits bits)).toNat = 1 := by
    simp [show 0 < fastBits bits by omega]
  have hlow : (BitVec.ofNat (fastBits bits) u &&& 1#_).toNat = u % 2 := by
    rw [BitVec.toNat_and, h1, BitVec.toNat_ofNat, Nat.mod_eq_of_lt hu, Nat.and_one_is_mod]
  have hshift : (BitVec.ofNat (fastBits bits) u >>> 1).toNat = u / 2 := by
    rw [BitVec.toNat_ushiftRight, BitVec.toNat_ofNat, Nat.mod_eq_of_lt hu, Nat.shiftRight_eq_div_pow,
      pow_one]
  simp only [zigzagDecode, ← BitVec.neg_eq_not_add]
  split_ifs with h
  · have hz : BitVec.ofNat (fastBits bits) u &&& 1#_ = 0#_ := by
      apply BitVec.eq_of_toNat_eq
      rw [hlow, h]
      simp
    rw [hz, BitVec.neg_zero, BitVec.xor_zero, hshift]
  · have hz : BitVec.ofNat (fastBits bits) u &&& 1#_ = 1#_ := by
      apply BitVec.eq_of_toNat_eq
      rw [hlow, h1]
      omega
    rw [hz, BitVec.neg_one_eq_allOnes, BitVec.xor_allOnes, BitVec.toNat_not, hshift]

theorem cast_zigzagDecode {c : CInt} {x : ℤ} (hs : c.signed = true) (h : c.InRange x) :
    c.cast (zigzagDecode c.bits (zigzagEncode c x)) = x := by
  have he := zigzagEncode_eq hs h
  have hlt : zigzagEncode c x < 2 ^ fastBits c.bits := BitVec.isLt _
  rw [zigzagDecode_eq (by cases c <;> decide) hlt]
  cases c <;> simp [CInt.signed, CInt.InRange, CInt.bits] at hs h <;>
    simp [CInt.bits, fastBits, CInt.cast, CInt.signed] at hlt ⊢ <;> split_ifs at * <;> omega

/-- What a varint of `bits` bits may look like on the wire. -/
def Numeral (bits : ℕ) (p : List UInt8) : Prop :=
  Complete p ∧ p.length ≤ maxVarintWireSize bits ∧ value p < 2 ^ bits

instance (bits : ℕ) : DecidablePred (Numeral bits) := fun p => by
  unfold Numeral; infer_instance

theorem readVarintFast_eq_ok {maxLast left : ℕ} (hl : maxLast < 128) {mem : List UInt8}
    {shift u n k v : ℕ} (hu : u < 2 ^ shift) :
    readVarintFast maxLast (left + 1) mem shift u n = .ok k v ↔
      ∃ p rest, mem = p ++ rest ∧ Complete p ∧ p.length ≤ left + 1 ∧
        value p < 128 ^ left * (maxLast + 1) ∧ k = n + p.length ∧ v = u + 2 ^ shift * value p := by
  induction left generalizing mem shift u n with
  | zero =>
    cases mem with
    | nil =>
      simp only [readVarintFast, reduceCtorEq, false_iff]
      rintro ⟨p, rest, h, hp, -⟩
      exact hp.not_nil_append h
    | cons b mem =>
      simp only [readVarintFast, if_true, or_shiftLeft hu]
      constructor
      · intro h
        split_ifs at h with hb
        cases h
        refine ⟨[b], mem, rfl, ?_, by simp, ?_, by simp, ?_⟩
        · simp [Complete]; omega
        · simp [value]; omega
        · simp [value, Nat.mod_eq_of_lt (by omega : b.toNat < 128)]
      · rintro ⟨p, rest, h, hp, hlen, hval, rfl, rfl⟩
        obtain ⟨q, rfl, rfl⟩ := hp.cons_inv h
        obtain rfl : q = [] := by simpa using hlen
        have hb : b.toNat < 128 := by
          by_contra hb
          simp [Complete, hb] at hp
        simp only [value, Nat.mod_eq_of_lt hb, pow_zero] at hval ⊢
        rw [if_pos (by omega)]
        simp
  | succ left ih =>
    cases mem with
    | nil =>
      simp only [readVarintFast, reduceCtorEq, false_iff]
      rintro ⟨p, rest, h, hp, -⟩
      exact hp.not_nil_append h
    | cons b mem =>
      have hmod := Nat.mod_lt b.toNat (by omega : 0 < 128)
      have hu' : u + 2 ^ shift * (b.toNat % 128) < 2 ^ (shift + 7) := by
        have : 2 ^ shift * (b.toNat % 128) ≤ 2 ^ shift * 127 := Nat.mul_le_mul_left _ (by omega)
        rw [pow_add]
        omega
      unfold readVarintFast
      simp only [Nat.add_eq_zero_iff, one_ne_zero, and_false, if_false, and_0x7f, or_shiftLeft hu]
      by_cases hb : b.toNat < 128
      · rw [if_pos hb]
        constructor
        · intro h
          cases h
          refine ⟨[b], mem, rfl, by simp [Complete, hb], by simp, ?_, by simp, by simp [value]⟩
          have : 0 < 128 ^ left * (maxLast + 1) := by positivity
          simp only [value, pow_succ]
          nlinarith
        · rintro ⟨p, rest, h, hp, hlen, hval, rfl, rfl⟩
          obtain ⟨q, rfl, rfl⟩ := hp.cons_inv h
          obtain rfl : q = [] := by simpa [Complete, hb] using hp
          simp [value]
      · rw [if_neg hb, ih hu']
        constructor
        · rintro ⟨p, rest, rfl, hp, hlen, hval, rfl, rfl⟩
          refine ⟨b :: p, rest, rfl, by simpa [Complete, hb] using hp, by simpa using hlen, ?_, ?_, ?_⟩
          · simp only [value, pow_succ]
            nlinarith
          · simp; omega
          · simp only [value, pow_add]; ring
        · rintro ⟨p, rest, h, hp, hlen, hval, rfl, rfl⟩
          obtain ⟨q, rfl, rfl⟩ := hp.cons_inv h
          refine ⟨q, rest, rfl, by simpa [Complete, hb] using hp, by simpa using hlen, ?_, ?_, ?_⟩
          · simp only [value, pow_succ, mul_right_comm _ 128] at hval
            omega
          · simp; omega
          · simp only [value, pow_add]; ring

theorem readVarintSlow_eq_ok {lim : ℕ} {mem : List UInt8} {shift u n k v : ℕ} (hu : u < 2 ^ shift) :
    readVarintSlow lim mem shift u n = .ok k v ↔
      ∃ p rest, mem = p ++ rest ∧ Complete p ∧ p.length ≤ lim ∧ k = n + p.length ∧
        v = u + 2 ^ shift * value p := by
  induction lim generalizing mem shift u n with
  | zero =>
    simp only [readVarintSlow, reduceCtorEq, false_iff]
    rintro ⟨p, rest, -, hp, hlen, -⟩
    have := hp.length_pos
    omega
  | succ lim ih =>
    cases mem with
    | nil =>
      simp only [readVarintSlow, reduceCtorEq, false_iff]
      rintro ⟨p, rest, h, hp, -⟩
      exact hp.not_nil_append h
    | cons b mem =>
      have hmod := Nat.mod_lt b.toNat (by omega : 0 < 128)
      have hu' : u + 2 ^ shift * (b.toNat % 128) < 2 ^ (shift + 7) := by
        have : 2 ^ shift * (b.toNat % 128) ≤ 2 ^ shift * 127 := Nat.mul_le_mul_left _ (by omega)
        rw [pow_add]
        omega
      unfold readVarintSlow
      simp only [and_0x7f, or_shiftLeft hu]
      by_cases hb : b.toNat < 128
      · rw [if_neg (by omega)]
        constructor
        · intro h
          cases h
          refine ⟨[b], mem, rfl, by simp [Complete, hb], by simp, by simp, ?_⟩
          simp [value, Nat.mod_eq_of_lt hb]
        · rintro ⟨p, rest, h, hp, hlen, rfl, rfl⟩
          obtain ⟨q, rfl, rfl⟩ := hp.cons_inv h
          obtain rfl : q = [] := by simpa [Complete, hb] using hp
          simp [value, Nat.mod_eq_of_lt hb]
      · rw [if_pos (by omega), ih hu']
        constructor
        · rintro ⟨p, rest, rfl, hp, hlen, rfl, rfl⟩
          refine ⟨b :: p, rest, rfl, by simpa [Complete, hb] using hp, by simpa using hlen, ?_, ?_⟩
          · simp; omega
          · simp only [value, pow_add]; ring
        · rintro ⟨p, rest, h, hp, hlen, rfl, rfl⟩
          obtain ⟨q, rfl, rfl⟩ := hp.cons_inv h
          refine ⟨q, rest, rfl, by simpa [Complete, hb] using hp, by simpa using hlen, ?_, ?_⟩
          · simp; omega
          · simp only [value, pow_add]; ring

theorem two_pow_bits (bits : ℕ) : 128 ^ (bits / 7) * (maxVarintLastByte bits + 1) = 2 ^ bits := by
  have hpos : 0 < 2 ^ (bits % 7) := by positivity
  rw [maxVarintLastByte, show 2 ^ (bits % 7) - 1 + 1 = 2 ^ (bits % 7) by omega,
    show (128 : ℕ) = 2 ^ 7 by rfl, ← pow_mul, ← pow_add]
  congr 1
  omega

theorem maxVarintLastByte_lt (bits : ℕ) : maxVarintLastByte bits < 128 := by
  have : 2 ^ (bits % 7) ≤ 2 ^ 7 := Nat.pow_le_pow_right (by omega) (by omega)
  unfold maxVarintLastByte
  omega

/-- The reader accepts exactly the numerals that fit its type and the bytes it is given. -/
theorem readVarintUint_eq_ok {bits : ℕ} {mem : List UInt8} {lim k v : ℕ} :
    readVarintUint bits mem lim = .ok k v ↔
      ∃ p rest, mem = p ++ rest ∧ Numeral bits p ∧ p.length ≤ lim ∧ k = p.length ∧ v = value p := by
  unfold readVarintUint Numeral
  split_ifs with hlim
  · rw [show maxVarintWireSize bits = bits / 7 + 1 from rfl,
      readVarintFast_eq_ok (maxVarintLastByte_lt bits) (by simp), two_pow_bits]
    constructor
    · rintro ⟨p, rest, rfl, hp, hlen, hval, rfl, rfl⟩
      unfold maxVarintWireSize at hlim
      exact ⟨p, rest, rfl, ⟨hp, hlen, hval⟩, by omega, by simp, by simp⟩
    · rintro ⟨p, rest, rfl, ⟨hp, hlen, hval⟩, -, rfl, rfl⟩
      exact ⟨p, rest, rfl, hp, hlen, hval, by simp, by simp⟩
  · rw [readVarintSlow_eq_ok (by simp)]
    constructor
    · rintro ⟨p, rest, rfl, hp, hlen, rfl, rfl⟩
      unfold maxVarintWireSize at hlim ⊢
      refine ⟨p, rest, rfl, ⟨hp, by omega, ?_⟩, hlen, by simp, by simp⟩
      calc
        value p < 128 ^ p.length := value_lt p
        _ ≤ 128 ^ (bits / 7) := Nat.pow_le_pow_right (by omega) (by omega)
        _ ≤ 128 ^ (bits / 7) * (maxVarintLastByte bits + 1) := Nat.le_mul_of_pos_right _ (by omega)
        _ = 2 ^ bits := two_pow_bits bits
    · rintro ⟨p, rest, rfl, ⟨hp, -, -⟩, hlen, rfl, rfl⟩
      exact ⟨p, rest, rfl, hp, hlen, by simp, by simp⟩

theorem readVarintUint_append {bits : ℕ} {p rest : List UInt8} {lim : ℕ} (hp : Numeral bits p)
    (hlim : p.length ≤ lim) : readVarintUint bits (p ++ rest) lim = .ok p.length (value p) :=
  readVarintUint_eq_ok.mpr ⟨p, rest, rfl, hp, hlim, rfl, rfl⟩

theorem readVarintFast_take {maxLast left : ℕ} {mem : List UInt8} {shift u n lim : ℕ}
    (h : left ≤ lim) :
    readVarintFast maxLast left (mem.take lim) shift u n =
      readVarintFast maxLast left mem shift u n := by
  induction left generalizing mem shift u n lim with
  | zero => rfl
  | succ left ih =>
    obtain ⟨lim, rfl⟩ : ∃ j, lim = j + 1 := ⟨lim - 1, by omega⟩
    cases mem with
    | nil => rfl
    | cons b mem => simp only [List.take_succ_cons, readVarintFast, ih (by omega : left ≤ lim)]

theorem readVarintSlow_take {lim : ℕ} {mem : List UInt8} {shift u n : ℕ} :
    readVarintSlow lim (mem.take lim) shift u n = readVarintSlow lim mem shift u n := by
  induction lim generalizing mem shift u n with
  | zero => rfl
  | succ lim ih =>
    cases mem with
    | nil => rfl
    | cons b mem => simp only [List.take_succ_cons, readVarintSlow, ih]

/-- No byte past the limit is looked at. -/
theorem readVarintUint_take (bits : ℕ) (mem : List UInt8) (lim : ℕ) :
    readVarintUint bits (mem.take lim) lim = readVarintUint bits mem lim := by
  unfold readVarintUint
  split_ifs with h
  · exact readVarintFast_take h
  · exact readVarintSlow_take

theorem readVarint_take (zigzag : Bool) (c : CInt) (mem : List UInt8) (lim : ℕ) :
    readVarint zigzag c (mem.take lim) lim = readVarint zigzag c mem lim := by
  unfold readVarint
  rw [readVarintUint_take]
  cases mem with
  | nil => simp
  | cons b mem => cases lim <;> simp

theorem readVarintFast_ne_stop {maxLast left : ℕ} {mem : List UInt8} {shift u n : ℕ} {s : Stop}
    (h : left ≤ mem.length) : readVarintFast maxLast left mem shift u n ≠ .stop s := by
  induction left generalizing mem shift u n with
  | zero => simp [readVarintFast]
  | succ left ih =>
    cases mem with
    | nil => simp at h
    | cons b mem =>
      simp only [readVarintFast]
      split_ifs <;> simp
      exact ih (by simpa using h)

theorem readVarintSlow_ne_stop {lim : ℕ} {mem : List UInt8} {shift u n : ℕ} {s : Stop}
    (h : lim ≤ mem.length) : readVarintSlow lim mem shift u n ≠ .stop s := by
  induction lim generalizing mem shift u n with
  | zero => simp [readVarintSlow]
  | succ lim ih =>
    cases mem with
    | nil => simp at h
    | cons b mem =>
      simp only [readVarintSlow]
      split_ifs
      · exact ih (by simpa using h)
      · simp

theorem readVarintUint_ne_stop {bits : ℕ} {mem : List UInt8} {lim : ℕ} {s : Stop}
    (h : lim ≤ mem.length) : readVarintUint bits mem lim ≠ .stop s := by
  unfold readVarintUint
  split_ifs with hl
  · exact readVarintFast_ne_stop (by omega)
  · exact readVarintSlow_ne_stop h

theorem readVarintFast_err {maxLast left : ℕ} {mem : List UInt8} {shift u n : ℕ} {e : PbErr}
    (h : readVarintFast maxLast left mem shift u n = .err e) : e = .varintTooLarge := by
  induction left generalizing mem shift u n with
  | zero => simpa [readVarintFast] using h.symm
  | succ left ih =>
    cases mem with
    | nil => simp [readVarintFast] at h
    | cons b mem =>
      simp only [readVarintFast] at h
      split_ifs at h
      · simpa using h.symm
      · exact ih h

theorem readVarintSlow_err {lim : ℕ} {mem : List UInt8} {shift u n : ℕ} {e : PbErr}
    (h : readVarintSlow lim mem shift u n = .err e) : e = .varintIncomplete := by
  induction lim generalizing mem shift u n with
  | zero => simpa [readVarintSlow] using h.symm
  | succ lim ih =>
    cases mem with
    | nil => simp [readVarintSlow] at h
    | cons b mem =>
      simp only [readVarintSlow] at h
      split_ifs at h
      exact ih h

theorem readVarintUint_le {bits : ℕ} {mem : List UInt8} {lim k v : ℕ}
    (h : readVarintUint bits mem lim = .ok k v) : 0 < k ∧ k ≤ lim ∧ k ≤ mem.length := by
  obtain ⟨p, rest, rfl, hp, hlim, rfl, -⟩ := readVarintUint_eq_ok.mp h
  exact ⟨hp.1.length_pos, hlim, by simp⟩

theorem skipVarintFast_eq {maxLast left : ℕ} {mem : List UInt8} {shift u n : ℕ} :
    skipVarintFast maxLast left mem n =
      (readVarintFast maxLast left mem shift u n).map (fun _ => ()) := by
  induction left generalizing mem shift u n with
  | zero => rfl
  | succ left ih =>
    cases mem with
    | nil => rfl
    | cons b mem =>
      simp only [skipVarintFast, readVarintFast]
      split_ifs
      · rfl
      · rfl
      · rfl
      · exact ih

theorem skipVarintSlow_eq {lim : ℕ} {mem : List UInt8} {shift u n : ℕ} :
    skipVarintSlow lim mem n = (readVarintSlow lim mem shift u n).map (fun _ => ()) := by
  induction lim generalizing mem shift u n with
  | zero => rfl
  | succ lim ih =>
    cases mem with
    | nil => rfl
    | cons b mem =>
      simp only [skipVarintSlow, readVarintSlow]
      split_ifs
      · exact ih
      · rfl

/-- A varint is skipped as a 64-bit one is read. -/
theorem skipVarint_eq (mem : List UInt8) (lim : ℕ) :
    skipVarint mem lim = (readVarintUint 64 mem lim).map (fun _ => ()) := by
  unfold skipVarint readVarintUint
  split_ifs
  · exact skipVarintFast_eq
  · exact skipVarintSlow_eq

theorem varintUint_u32 {u : ℕ} (h : u < 2 ^ 32) : varintUint false .u32 u = u := by
  simp only [varintUint, Bool.false_eq_true, if_false]
  rw [show fastBits (varintUintBits false .u32) = 32 from rfl]
  omega

theorem appendVarint_u32 {u : ℕ} (h : u < 2 ^ 32) : appendVarint false .u32 u = encode u := by
  rw [appendVarint_eq (by decide), varintUint_u32 h]

theorem varintWireSize_u32 {u : ℕ} (h : u < 2 ^ 32) :
    varintWireSize false .u32 u = (encode u).length := by
  rw [varintWireSize_eq (by decide), varintUint_u32 h]

theorem varintBytes_eq {u : ℕ} (h : u < 2 ^ 32) : varintBytes u = encode u := appendVarint_u32 h

theorem numeral_encode {bits u : ℕ} (h : u < 2 ^ bits) : Numeral bits (encode u) := by
  refine ⟨complete_encode u, ?_, by rwa [value_encode]⟩
  apply length_encode_le (by unfold maxVarintWireSize; omega)
  calc
    u < 2 ^ bits := h
    _ ≤ 2 ^ (7 * maxVarintWireSize bits) := by
      apply Nat.pow_le_pow_right (by omega)
      unfold maxVarintWireSize
      omega
    _ = 128 ^ maxVarintWireSize bits := by rw [pow_mul]; rfl

end Jkl.Pb
