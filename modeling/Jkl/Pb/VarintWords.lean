import Jkl.Pb.VarintSpec
import Mathlib.Data.FinEnum

/-! The varint codec in the promoted machine words, with the out parameter of `read_varint`,
against a reference decoder. -/
namespace Jkl.Pb
open Base128

/-- `u |= t << s` in an unsigned type of `w` bits; nothing where the shift is undefined or loses
bits. -/
def orShl (w u t s : ℕ) : Option ℕ := if s < w ∧ t <<< s < 2 ^ w then some (u ||| t <<< s) else none

/-- The unrolled path: `left` more bytes may be read, the last of them at most `maxLast`. -/
def readFastWords (w maxLast : ℕ) : (left : ℕ) → List UInt8 → (shift u n : ℕ) → Option (Scan ℕ)
  | 0, _, _, _, _ => some (.err .varintTooLarge)
  | _ + 1, [], _, _, _ => some (.stop .fault)
  | left + 1, b :: mem, shift, u, n =>
    let t := b.toNat
    if left = 0 then
      if t ≤ maxLast then (orShl w u t shift).map (.ok (n + 1)) else some (.err .varintTooLarge)
    else
      match orShl w u (t &&& 0x7f) shift with
      | none => none
      | some u =>
        if t < 0x80 then some (.ok (n + 1) u) else readFastWords w maxLast left mem (shift + 7) u (n + 1)

/-- The loop near the end of the range. -/
def readSlowWords (w : ℕ) : (lim : ℕ) → List UInt8 → (shift u n : ℕ) → Option (Scan ℕ)
  | 0, _, _, _, _ => some (.err .varintIncomplete)
  | _ + 1, [], _, _, _ => some (.stop .fault)
  | lim + 1, b :: mem, shift, u, n =>
    let t := b.toNat
    if 0x80 ≤ t then
      match orShl w u (t &&& 0x7f) shift with
      | none => none
      | some u => readSlowWords w lim mem (shift + 7) u (n + 1)
    else (orShl w u t shift).map (.ok (n + 1))

/-- The path taken when `max_varint_wire_size` bytes are there. -/
def readFast (bits : ℕ) (mem : List UInt8) : Option (Scan ℕ) :=
  readFastWords (fastBits bits) (maxVarintLastByte bits) (maxVarintWireSize bits) mem 0 0 0

/-- The path taken when fewer are. -/
def readSlow (bits : ℕ) (mem : List UInt8) (lim : ℕ) : Option (Scan ℕ) :=
  readSlowWords (fastBits bits) lim mem 0 0 0

/-- `v = static_cast<T>(u)`, decoded first if the type is a zigzag one. -/
def varintVal (zigzag : Bool) (c : CInt) (u : ℕ) : ℤ :=
  c.cast (if zigzag then zigzagDecode c.bits u else u)

/-- What `read_varint` returns and what it leaves in `v`. -/
def assignTo (zigzag : Bool) (c : CInt) (v : ℤ) : Scan ℕ → Scan Unit × ℤ
  | .ok n u => (.ok n (), varintVal zigzag c u)
  | .err e => (.err e, v)
  | .stop s => (.stop s, v)

/-- `read_varint`; nothing if a shift is undefined or loses bits. -/
def readVarintInto (zigzag : Bool) (c : CInt) (mem : List UInt8) (lim : ℕ) (v : ℤ) :
    Option (Scan Unit × ℤ) :=
  if c = .bool then
    some (if 0 < lim then
      match mem with
      | [] => (.stop .fault, v)
      | b :: _ => (.ok 1 (), c.cast b.toNat)
    else (.err .varintIncomplete, v))
  else
    let bits := varintUintBits zigzag c
    (if maxVarintWireSize bits ≤ lim then readFast bits mem else readSlow bits mem lim).map
      (assignTo zigzag c v)

/-- What a range holds up to its first byte without a continuation bit. -/
def firstNumeral (range : List UInt8) : List UInt8 :=
  range.takeWhile (0x80 ≤ ·.toNat) ++ (range.dropWhile (0x80 ≤ ·.toNat)).take 1

/-- The reference decoder for unsigned values of `bits` bits. -/
def refDecode (bits : ℕ) (range : List UInt8) : Scan ℕ :=
  if Numeral bits (firstNumeral range) then
    .ok (firstNumeral range).length (value (firstNumeral range))
  else if (∀ b ∈ range, 0x80 ≤ b.toNat) ∧ range.length < maxVarintWireSize bits then
    .err .varintIncomplete
  else .err .varintTooLarge

section Words

theorem orShl_eq {w u t s : ℕ} (hs : s < w) (ht : t < 2 ^ (w - s)) :
    orShl w u t s = some (u ||| t <<< s) := by
  have hlt : t <<< s < 2 ^ w := by
    rw [Nat.shiftLeft_eq]
    calc
      t * 2 ^ s < 2 ^ (w - s) * 2 ^ s := Nat.mul_lt_mul_of_pos_right ht (by positivity)
      _ = 2 ^ w := by rw [← pow_add]; congr 1; omega
  rw [orShl, if_pos ⟨hs, hlt⟩]

theorem orShl_group {w u t s : ℕ} (hs : s + 7 ≤ w) (ht : t < 128) :
    orShl w u t s = some (u ||| t <<< s) := by
  apply orShl_eq (by omega)
  calc
    t < 2 ^ 7 := ht
    _ ≤ 2 ^ (w - s) := Nat.pow_le_pow_right (by omega) (by omega)

/-- The last byte of the unrolled path has the bits that are left. -/
theorem readFastWords_eq {w maxLast left : ℕ} {mem : List UInt8} {shift u n : ℕ}
    (hw : shift + 7 * left < w) (hl : maxLast < 2 ^ (w - (shift + 7 * left))) :
    readFastWords w maxLast (left + 1) mem shift u n =
      some (readVarintFast maxLast (left + 1) mem shift u n) := by
  induction left generalizing mem shift u n with
  | zero =>
    cases mem with
    | nil => rfl
    | cons b mem =>
      simp only [readFastWords, readVarintFast, if_true]
      split_ifs with hb
      · rw [orShl_eq (by omega) (by simpa using lt_of_le_of_lt hb hl)]
        rfl
      · rfl
  | succ left ih =>
    cases mem with
    | nil => rfl
    | cons b mem =>
      have hgroup : b.toNat &&& 0x7f < 128 := by
        rw [and_0x7f]
        exact Nat.mod_lt _ (by omega)
      unfold readFastWords readVarintFast
      simp only [Nat.add_eq_zero_iff, one_ne_zero, and_false, if_false]
      rw [orShl_group (by omega) hgroup]
      simp only
      split_ifs with hb
      · rfl
      · have hnext : shift + 7 + 7 * left = shift + 7 * (left + 1) := by ring
        exact ih (by omega) (by rwa [hnext])

theorem readSlowWords_eq {w lim : ℕ} {mem : List UInt8} {shift u n : ℕ}
    (hw : shift + 7 * lim ≤ w) :
    readSlowWords w lim mem shift u n = some (readVarintSlow lim mem shift u n) := by
  induction lim generalizing mem shift u n with
  | zero => rfl
  | succ lim ih =>
    cases mem with
    | nil => rfl
    | cons b mem =>
      have hgroup : b.toNat &&& 0x7f < 128 := by
        rw [and_0x7f]
        exact Nat.mod_lt _ (by omega)
      unfold readSlowWords readVarintSlow
      simp only
      split_ifs with hb
      · rw [orShl_group (by omega) hgroup]
        exact ih (by omega)
      · rw [orShl_group (by omega) (by omega)]
        rfl

theorem le_fastBits_of_le {bits : ℕ} (h : bits ≤ 64) : bits ≤ fastBits bits := by
  unfold fastBits
  split <;> omega

theorem readFast_eq {bits : ℕ} (hb : bits ≤ 64) (h7 : 0 < bits % 7) (mem : List UInt8) :
    readFast bits mem =
      some (readVarintFast (maxVarintLastByte bits) (maxVarintWireSize bits) mem 0 0 0) := by
  have hw := le_fastBits_of_le hb
  have hpow : 2 ^ (bits % 7) ≤ 2 ^ (fastBits bits - (0 + 7 * (bits / 7))) :=
    Nat.pow_le_pow_right (by omega) (by omega)
  have hpos : 0 < 2 ^ (bits % 7) := by positivity
  apply readFastWords_eq
  · omega
  · unfold maxVarintLastByte
    omega

theorem readSlow_eq {bits : ℕ} (hb : bits ≤ 64) (mem : List UInt8) {lim : ℕ}
    (hlim : lim < maxVarintWireSize bits) :
    readSlow bits mem lim = some (readVarintSlow lim mem 0 0 0) := by
  have hw := le_fastBits_of_le hb
  unfold maxVarintWireSize at hlim
  apply readSlowWords_eq
  omega

end Words

section Reference

/-- A numeral at the start of a range is what the range holds up to its first byte without a
continuation bit. -/
theorem firstNumeral_append {p : List UInt8} (hp : Complete p) (rest : List UInt8) :
    firstNumeral (p ++ rest) = p := by
  induction p with
  | nil => exact hp.elim
  | cons b p ih =>
    by_cases hb : b.toNat < 128
    · obtain rfl : p = [] := by simpa [Complete, hb] using hp
      simp [firstNumeral, hb]
    · have hcons : firstNumeral (b :: (p ++ rest)) = b :: firstNumeral (p ++ rest) := by
        simp [firstNumeral, not_lt.mp hb]
      rw [List.cons_append, hcons, ih (by simpa [Complete, hb] using hp)]

theorem firstNumeral_prefix (range : List UInt8) : ∃ rest, range = firstNumeral range ++ rest := by
  refine ⟨(range.dropWhile (0x80 ≤ ·.toNat)).drop 1, ?_⟩
  rw [firstNumeral, List.append_assoc, List.take_append_drop, List.takeWhile_append_dropWhile]

theorem refDecode_eq_ok {bits : ℕ} {range : List UInt8} {n u : ℕ} :
    refDecode bits range = .ok n u ↔
      ∃ p rest, range = p ++ rest ∧ Numeral bits p ∧ n = p.length ∧ u = value p := by
  constructor
  · intro h
    unfold refDecode at h
    split_ifs at h with hp
    cases h
    obtain ⟨rest, hrest⟩ := firstNumeral_prefix range
    exact ⟨firstNumeral range, rest, hrest, hp, rfl, rfl⟩
  · rintro ⟨p, rest, rfl, hp, rfl, rfl⟩
    rw [refDecode, firstNumeral_append hp.1, if_pos hp]

/-- The loop fails only by running out of bytes. -/
theorem readVarintSlow_ran_out {lim : ℕ} {mem : List UInt8} {shift u n : ℕ} {e : PbErr}
    (h : readVarintSlow lim mem shift u n = .err e) : ∀ b ∈ mem.take lim, 0x80 ≤ b.toNat := by
  induction lim generalizing mem shift u n with
  | zero => simp
  | succ lim ih =>
    cases mem with
    | nil => simp [readVarintSlow] at h
    | cons b mem =>
      simp only [readVarintSlow] at h
      split_ifs at h with hb
      have hall := ih h
      simpa using ⟨hb, hall⟩

theorem length_firstNumeral_le (range : List UInt8) : (firstNumeral range).length ≤ range.length := by
  obtain ⟨rest, hrest⟩ := firstNumeral_prefix range
  have := congrArg List.length hrest
  simp only [List.length_append] at this
  omega

/-- Reading is decoding, whichever of the two paths it takes. -/
theorem readVarintUint_eq_refDecode {bits : ℕ} {mem : List UInt8} {lim : ℕ}
    (hlim : lim ≤ mem.length) : readVarintUint bits mem lim = refDecode bits (mem.take lim) := by
  cases h : readVarintUint bits mem lim with
  | stop s => exact absurd h (readVarintUint_ne_stop hlim)
  | ok n u =>
    obtain ⟨p, rest, rfl, hp, hplim, rfl, rfl⟩ := readVarintUint_eq_ok.mp h
    refine (refDecode_eq_ok.mpr ⟨p, rest.take (lim - p.length), ?_, hp, rfl, rfl⟩).symm
    rw [List.take_append, List.take_of_length_le hplim]
  | err e =>
    have hlen : (mem.take lim).length = lim := List.length_take_of_le hlim
    have hno : ¬ Numeral bits (firstNumeral (mem.take lim)) := by
      intro hp
      obtain ⟨rest, hrest⟩ := firstNumeral_prefix (mem.take lim)
      have hle := length_firstNumeral_le (mem.take lim)
      have hok : readVarintUint bits (firstNumeral (mem.take lim) ++ rest) lim = .ok _ _ :=
        readVarintUint_append hp (hle.trans hlen.le)
      rw [← hrest, readVarintUint_take, h] at hok
      cases hok
    rw [refDecode, if_neg hno]
    unfold readVarintUint at h
    split_ifs at h with hfast
    · rw [if_neg (by omega), readVarintFast_err h]
    · rw [if_pos ⟨readVarintSlow_ran_out h, by omega⟩, readVarintSlow_err h]

theorem varintUintBits_mod (zigzag : Bool) (c : CInt) : 0 < varintUintBits zigzag c % 7 := by
  cases zigzag <;> cases c <;> decide

/-- The words of the width that the source promotes to lose nothing. -/
theorem readVarintInto_eq {c : CInt} (hc : c ≠ .bool) (zigzag : Bool) (mem : List UInt8) (lim : ℕ)
    (v : ℤ) : readVarintInto zigzag c mem lim v =
      some (assignTo zigzag c v (readVarintUint (varintUintBits zigzag c) mem lim)) := by
  unfold readVarintInto readVarintUint
  rw [if_neg hc]
  simp only
  split_ifs with hfast
  · rw [readFast_eq (varintUintBits_le zigzag c) (varintUintBits_mod zigzag c)]
    rfl
  · rw [readSlow_eq (varintUintBits_le zigzag c) mem (not_le.mp hfast)]
    rfl

/-- The out parameter apart, this is the reader the fields use. -/
theorem readVarintInto_eq_readVarint (zigzag : Bool) (c : CInt) (mem : List UInt8) (lim : ℕ) (v : ℤ) :
    readVarintInto zigzag c mem lim v = some (match readVarint zigzag c mem lim with
      | .ok n x => (.ok n (), x)
      | .err e => (.err e, v)
      | .stop s => (.stop s, v)) := by
  by_cases hc : c = .bool
  · unfold readVarintInto readVarint
    rw [if_pos hc, if_pos hc]
    split_ifs
    · cases mem <;> rfl
    · rfl
  · rw [readVarintInto_eq hc]
    unfold readVarint
    rw [if_neg hc]
    cases readVarintUint (varintUintBits zigzag c) mem lim <;> rfl

/-- The loop succeeds where the unrolled path does without leaving the range of the loop. -/
theorem readSlow_iff_readFast {bits : ℕ} (hb : bits ≤ 64) (h7 : 0 < bits % 7)
    {range behind more : List UInt8} (hshort : range.length < maxVarintWireSize bits)
    (hlong : maxVarintWireSize bits ≤ (range ++ more).length) (n u : ℕ) :
    readSlow bits (range ++ behind) range.length = some (.ok n u) ↔
      readFast bits (range ++ more) = some (.ok n u) ∧ n ≤ range.length := by
  have hslow : readVarintSlow range.length (range ++ behind) 0 0 0 = refDecode bits range := by
    have h : readVarintUint bits (range ++ behind) range.length = _ :=
      readVarintUint_eq_refDecode (by simp)
    rwa [readVarintUint, if_neg (by omega), List.take_left] at h
  have hfast : readVarintFast (maxVarintLastByte bits) (maxVarintWireSize bits) (range ++ more) 0 0 0 =
      refDecode bits (range ++ more) := by
    have h : readVarintUint bits (range ++ more) _ = _ := readVarintUint_eq_refDecode le_rfl
    rwa [readVarintUint, if_pos hlong, List.take_length] at h
  rw [readSlow_eq hb _ hshort, readFast_eq hb h7, hslow, hfast, Option.some_inj, Option.some_inj,
    refDecode_eq_ok, refDecode_eq_ok]
  constructor
  · rintro ⟨p, rest, rfl, hp, rfl, rfl⟩
    exact ⟨⟨p, rest ++ more, by simp, hp, rfl, rfl⟩, by simp⟩
  · rintro ⟨⟨p, rest, hrange, hp, rfl, rfl⟩, hle⟩
    obtain ⟨rest', hrest'⟩ : p <+: range :=
      List.prefix_of_prefix_length_le ⟨rest, hrange.symm⟩ (List.prefix_append range more) hle
    exact ⟨p, rest', hrest'.symm, hp, rfl, rfl⟩

/-- Reading is the reference decoder on the range, whatever lies behind it; the range is decoded
where it starts with a numeral of the type; and the two paths agree on a common prefix. -/
theorem readVarint_reference (zigzag : Bool) (c : CInt) (hc : c ≠ .bool) (range behind : List UInt8)
    (v : ℤ) :
    let bits := varintUintBits zigzag c
    readVarintInto zigzag c (range ++ behind) range.length v =
        some (assignTo zigzag c v (refDecode bits range)) ∧
      (∀ n u, refDecode bits range = .ok n u ↔
        ∃ p rest, range = p ++ rest ∧ Numeral bits p ∧ n = p.length ∧ u = value p) ∧
      ∀ more, range.length < maxVarintWireSize bits →
        maxVarintWireSize bits ≤ (range ++ more).length → ∀ n u,
        (readSlow bits (range ++ behind) range.length = some (.ok n u) ↔
          readFast bits (range ++ more) = some (.ok n u) ∧ n ≤ range.length) := by
  intro bits
  refine ⟨?_, fun n u => refDecode_eq_ok, fun more hshort hlong n u => ?_⟩
  · rw [readVarintInto_eq hc, readVarintUint_eq_refDecode (by simp), List.take_left]
  · exact readSlow_iff_readFast (varintUintBits_le zigzag c) (varintUintBits_mod zigzag c) hshort
      hlong n u

theorem readVarint_reference_i16 :
    readVarintInto true .i16 [0xff, 0xff, 0x03, 0x07] 4 5 = some (.ok 3 (), -32768) := by
  have h := (readVarint_reference true .i16 (by decide) [0xff, 0xff, 0x03, 0x07] [] 5).1
  have hread : assignTo true .i16 5 (refDecode 16 [0xff, 0xff, 0x03, 0x07]) =
      (.ok 3 (), -32768) := by decide
  exact h.trans (congrArg some hread)

end Reference

section RoundTrip

/-- `max_varint_wire_size<T, Zigzag>`. -/
def maxWireSize (zigzag : Bool) (c : CInt) : ℕ :=
  if c = .bool then 1 else maxVarintWireSize (varintUintBits zigzag c)

theorem varintUintBits_zigzag (c : CInt) : varintUintBits true c = c.bits := by
  cases c <;> rfl

theorem varintUint_lt_bits {zigzag : Bool} {c : CInt} {x : ℤ} (hc : c ≠ .bool)
    (hz : zigzag = true → c.signed = true) (hx : c.InRange x) :
    varintUint zigzag c x < 2 ^ varintUintBits zigzag c := by
  cases zigzag with
  | true =>
    have he := zigzagEncode_eq (hz rfl) hx
    rw [varintUintBits_zigzag]
    change zigzagEncode c x < 2 ^ c.bits
    zify
    rw [he]
    cases c <;> simp [CInt.signed] at hz <;> simp [CInt.InRange, CInt.signed, CInt.bits] at hx ⊢ <;>
      split_ifs <;> omega
  | false =>
    simp only [varintUint, Bool.false_eq_true, if_false]
    cases c <;> simp [CInt.InRange, CInt.signed, CInt.bits] at hx <;>
      simp [varintUintBits, fastBits, CInt.bits, CInt.signed] <;> omega

/-- The reader's conversion undoes the writer's. -/
theorem varintVal_varintUint {zigzag : Bool} {c : CInt} {x : ℤ} (hc : c ≠ .bool)
    (hz : zigzag = true → c.signed = true) (hx : c.InRange x) :
    varintVal zigzag c (varintUint zigzag c x) = x := by
  cases zigzag with
  | true => exact cast_zigzagDecode (hz rfl) hx
  | false =>
    simp only [varintVal, varintUint, Bool.false_eq_true, if_false]
    cases c <;> simp [CInt.InRange, CInt.signed, CInt.bits] at hx <;>
      simp [varintUintBits, fastBits, CInt.bits, CInt.signed, CInt.cast] at hc ⊢ <;> omega

theorem zigzagEncode_lt {c : CInt} {x : ℤ} (hs : c.signed = true) (hx : c.InRange x) :
    zigzagEncode c x < 2 ^ c.bits := by
  have hc : c ≠ .bool := by
    rintro rfl
    simp [CInt.signed] at hs
  have hlt : varintUint true c x < _ := varintUint_lt_bits hc (fun _ => hs) hx
  rwa [varintUintBits_zigzag] at hlt

/-- The decoded word is the value sign-extended to the promoted type. -/
theorem toInt_zigzagDecode {c : CInt} {u : ℕ} (hs : c.signed = true) (hu : u < 2 ^ c.bits) :
    (BitVec.ofNat (fastBits c.bits) (zigzagDecode c.bits u)).toInt =
      if u % 2 = 0 then (u / 2 : ℤ) else -(u / 2) - 1 := by
  have hlt : u < 2 ^ fastBits c.bits :=
    hu.trans_le (Nat.pow_le_pow_right (by omega) (le_fastBits c))
  rw [zigzagDecode_eq (by cases c <;> decide) hlt]
  cases c <;> simp [CInt.signed] at hs <;> simp [CInt.bits] at hu <;>
    simp [fastBits, CInt.bits, BitVec.toInt_ofNat', Int.bmod_def] <;> split_ifs <;> omega

theorem cast_zigzagDecode_eq {c : CInt} {u : ℕ} (hs : c.signed = true) (hu : u < 2 ^ c.bits) :
    c.cast (zigzagDecode c.bits u) = if u % 2 = 0 then (u / 2 : ℤ) else -(u / 2) - 1 := by
  have hlt : u < 2 ^ fastBits c.bits :=
    hu.trans_le (Nat.pow_le_pow_right (by omega) (le_fastBits c))
  rw [zigzagDecode_eq (by cases c <;> decide) hlt]
  cases c <;> simp [CInt.signed] at hs <;> simp [CInt.bits] at hu <;>
    simp [fastBits, CInt.bits, CInt.cast, CInt.signed] <;> split_ifs <;> omega

theorem zigzagEncode_zigzagDecode {c : CInt} {u : ℕ} (hs : c.signed = true) (hu : u < 2 ^ c.bits) :
    zigzagEncode c (c.cast (zigzagDecode c.bits u)) = u := by
  have he := zigzagEncode_eq hs (CInt.inRange_cast c (zigzagDecode c.bits u))
  rw [cast_zigzagDecode_eq hs hu] at he
  zify
  rw [cast_zigzagDecode_eq hs hu, he]
  split_ifs <;> omega

theorem length_appendVarint_le_max {zigzag : Bool} {c : CInt} {x : ℤ}
    (hz : zigzag = true → c.signed = true ∨ c = .bool) (hx : c.InRange x) :
    (appendVarint zigzag c x).length ≤ maxWireSize zigzag c := by
  by_cases hc : c = .bool
  · subst hc
    simp [appendVarint, maxWireSize]
  · rw [appendVarint_eq hc, maxWireSize, if_neg hc]
    have hlt := varintUint_lt_bits hc (fun h => (hz h).resolve_right hc) hx
    exact (numeral_encode hlt).2.1

theorem readVarint_appendVarint {zigzag : Bool} {c : CInt} {x : ℤ}
    (hz : zigzag = true → c.signed = true ∨ c = .bool) (hx : c.InRange x) {rest : List UInt8} {lim : ℕ}
    (hlim : (appendVarint zigzag c x).length ≤ lim) :
    readVarint zigzag c (appendVarint zigzag c x ++ rest) lim =
      .ok (appendVarint zigzag c x).length x := by
  by_cases hc : c = .bool
  · subst hc
    have hb : x = 0 ∨ x = 1 := hx
    simp only [appendVarint, if_true, List.length_singleton] at hlim ⊢
    unfold readVarint
    rw [if_pos rfl, if_pos (by omega)]
    rcases hb with rfl | rfl <;> rfl
  · have hz' : zigzag = true → c.signed = true := fun h => (hz h).resolve_right hc
    rw [appendVarint_eq hc] at hlim ⊢
    unfold readVarint
    rw [if_neg hc, readVarintUint_append (numeral_encode (varintUint_lt_bits hc hz' hx)) hlim,
      value_encode]
    exact congrArg (Res.ok _) (varintVal_varintUint hc hz' hx)

/-- What is written has the size that was computed for it, at most the largest of the type, and is
read back whatever follows it. Zigzag coding is a bijection between the values of a signed type
and the unsigned ones of its width, also in the promoted words. -/
theorem varint_round_trip (zigzag : Bool) (c : CInt) (x : ℤ)
    (hz : zigzag = true → c.signed = true ∨ c = .bool) (hx : c.InRange x) :
    (appendVarint zigzag c x).length = varintWireSize zigzag c x ∧
      varintWireSize zigzag c x ≤ maxWireSize zigzag c ∧
      (∀ rest lim, varintWireSize zigzag c x ≤ lim →
        readVarint zigzag c (appendVarint zigzag c x ++ rest) lim =
          .ok (varintWireSize zigzag c x) x) ∧
      (c.signed = true → zigzagEncode c x < 2 ^ c.bits ∧
        c.cast (zigzagDecode c.bits (zigzagEncode c x)) = x ∧
        (BitVec.ofNat (fastBits c.bits) (zigzagDecode c.bits (zigzagEncode c x))).toInt = x ∧
        ∀ u < 2 ^ c.bits, c.InRange (c.cast (zigzagDecode c.bits u)) ∧
          zigzagEncode c (c.cast (zigzagDecode c.bits u)) = u) := by
  have hlen := length_appendVarint zigzag c x
  refine ⟨hlen, ?_, ?_, ?_⟩
  · rw [← hlen]
    exact length_appendVarint_le_max hz hx
  · intro rest lim hlim
    rw [← hlen] at hlim ⊢
    exact readVarint_appendVarint hz hx hlim
  · intro hs
    have hlt := zigzagEncode_lt hs hx
    have hcast := cast_zigzagDecode hs hx
    refine ⟨hlt, hcast, ?_, fun u hu => ⟨CInt.inRange_cast c _, zigzagEncode_zigzagDecode hs hu⟩⟩
    rw [toInt_zigzagDecode hs hlt, ← cast_zigzagDecode_eq hs hlt, hcast]

theorem varint_round_trip_i8 :
    readVarint true .i8 (appendVarint true .i8 (-128) ++ [7]) 3 = .ok 2 (-128) := by
  have h := (varint_round_trip true .i8 (-128) (by decide) (by decide)).2.2.1 [7] 3 (by decide)
  exact h

/-- Skipping a varint is reading it into a `uint64_t`: the same position, or the same error. -/
theorem skipVarint_agrees (mem : List UInt8) (lim : ℕ) :
    skipVarint mem lim = (readVarint false .u64 mem lim).map (fun _ => ()) ∧
      (∀ n, skipVarint mem lim = .ok n () ↔ ∃ x, readVarint false .u64 mem lim = .ok n x) ∧
      ∀ e, skipVarint mem lim = .err e ↔ readVarint false .u64 mem lim = .err e := by
  have hmap : skipVarint mem lim = (readVarint false .u64 mem lim).map (fun _ => ()) := by
    rw [skipVarint_eq]
    unfold readVarint
    rw [if_neg (by decide)]
    change _ = Res.map _ (match readVarintUint 64 mem lim with
      | .ok n u => .ok n _
      | .err e => .err e
      | .stop s => .stop s)
    cases readVarintUint 64 mem lim <;> rfl
  refine ⟨hmap, fun n => ?_, fun e => ?_⟩
  · rw [hmap]
    cases readVarint false .u64 mem lim <;> simp [Res.map]
  · rw [hmap]
    cases readVarint false .u64 mem lim <;> simp [Res.map]

end RoundTrip

end Jkl.Pb
