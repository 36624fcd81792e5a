import Jkl.Uri.Comp
import Jkl.Uri.Slots
import Mathlib.Data.Nat.Digits.Lemmas

/-! What each component reserves against what it stores. Only an address can store more, and
only an encoded authority of one byte stores it at large. -/
namespace Jkl.Uri

open Cut (find find_eq_some)
open Jkl.Pb (CInt)

variable {asserts : Bool} {t : Tag} {dest src codec : Codec} {s : Bytes} {n k : ℕ}

/-! Values. -/

theorem length_digits_le (hk : 0 < k) (h : n < 10 ^ k) : (digits n).length ≤ k := by
  unfold digits
  split_ifs
  · exact hk
  · rw [List.length_reverse, List.length_map]
    exact (Nat.digits_length_le_iff (by decide) n).2 h

namespace Num

/-- The digits that `stringify_integer_max_bytes` counts are enough for the type. -/
theorem exists_digits_bound {ty : CInt} {m : ℤ} (h : ty ≠ .bool ∧ ty.InRange m) :
    ∃ k, 0 < k ∧ m.natAbs < 10 ^ k ∧ intMaxBytes ty = k + (if ty.signed then 1 else 0) ∧
      (ty.signed = false → 0 ≤ m) := by
  obtain ⟨hb, hr⟩ := h
  have hnat : ∀ k, -10 ^ k < m → m < 10 ^ k → m.natAbs < 10 ^ k := by
    intro k hl hu
    zify
    exact abs_lt.2 ⟨hl, hu⟩
  cases ty with
  | bool => exact absurd rfl hb
  | i8 | u8 =>
    simp [CInt.InRange, CInt.signed, CInt.bits] at hr
    exact ⟨3, by decide, hnat 3 (by omega) (by omega), rfl, by simp [CInt.signed, hr]⟩
  | i16 | u16 =>
    simp [CInt.InRange, CInt.signed, CInt.bits] at hr
    exact ⟨5, by decide, hnat 5 (by omega) (by omega), rfl, by simp [CInt.signed, hr]⟩
  | i32 | u32 =>
    simp [CInt.InRange, CInt.signed, CInt.bits] at hr
    exact ⟨10, by decide, hnat 10 (by omega) (by omega), rfl, by simp [CInt.signed, hr]⟩
  | i64 | u64 =>
    simp [CInt.InRange, CInt.signed, CInt.bits] at hr
    exact ⟨20, by decide, hnat 20 (by omega) (by omega), rfl, by simp [CInt.signed, hr]⟩

theorem length_text_le (n : Num) : n.text.length ≤ n.maxStringifySize := by
  cases n with
  | bool b => cases b <;> decide
  | float nat text h => exact h
  | int ty m h =>
    obtain ⟨k, hk, hlt, hmax, hsign⟩ := exists_digits_bound h
    have hlen := length_digits_le hk hlt
    simp only [text, maxStringifySize, hmax]
    by_cases hm : m < 0
    · have hs : ty.signed = true := by
        by_contra hs
        have := hsign (by simpa using hs)
        omega
      simp only [hm, hs, if_true, List.length_cons]
      omega
    · simp only [hm, if_false]
      omega

/-- The text needs all the storage there is for the type, and `set_end` wants one byte more. -/
def fills : Num → Bool
  | bool _ => false
  | n => n.maxStringifySize ≤ n.text.length

theorem stringify_eq (n : Num) :
    n.stringify asserts = if asserts ∧ n.fills then .halt .assertion else .ok n.text := by
  cases n <;> simp [stringify, fills]

def slot (asserts : Bool) (n : Num) : Slot :=
  if asserts ∧ n.fills then .failed n.maxStringifySize .assertion
  else .room n.maxStringifySize n.text

theorem covers_stringify (asserts : Bool) (n : Num) :
    Covers [n.slot asserts] (n.stringify asserts) n.maxStringifySize := by
  rw [stringify_eq, slot]
  split_ifs
  · exact covers_failed
  · exact covers_room n.length_text_le

end Num

namespace Value

def text : Value → Bytes
  | str s => s
  | null => lit "null"
  | num n => n.text

def fails (asserts : Bool) : Value → Bool
  | num n => asserts && n.fills
  | _ => false

theorem stringify_eq (v : Value) :
    v.stringify asserts = if v.fails asserts then .halt .assertion else .ok v.text := by
  cases v with
  | num n => simp [stringify, fails, text, Num.stringify_eq]
  | _ => rfl

theorem length_text_le (v : Value) : v.text.length ≤ v.maxStringifySize := by
  cases v with
  | num n => exact n.length_text_le
  | _ => exact le_rfl

end Value

/-! Where a byte is stored at large. -/

/-- Nothing was taken off a view that is shorter. -/
def Out.Tame (o : Out) : Prop := o.stop ≠ some .wild

namespace Out

variable {o p : Out} {e : Stop}

@[simp] theorem tame_ok : (ok s).Tame := fun h => by simp at h

@[simp] theorem tame_halt : (halt e).Tame ↔ e ≠ .wild := by simp [Tame]

theorem Tame.append (ho : o.Tame) (hp : p.Tame) : (o ++ p).Tame := by
  unfold Tame at *
  cases h : o.stop with
  | some e => rwa [append_of_stop h]
  | none => rwa [(append_of_none h).2.2]

theorem tame_append_iff (ho : o.stop = none) : (o ++ p).Tame ↔ p.Tame := by
  rw [Tame, (append_of_none ho).2.2, Tame]

theorem tame_append_left (hp : p.Tame) : (o ++ p).Tame ↔ o.Tame := by
  refine ⟨fun h => ?_, fun ho => ho.append hp⟩
  unfold Tame at *
  cases hs : o.stop with
  | some e => rwa [append_of_stop hs, hs] at h
  | none => simp

theorem Tame.back (ho : o.Tame) : o.back.Tame := by
  unfold Tame Out.back at *
  cases h : o.stop with
  | some e => simpa [h] using ho
  | none => simp

end Out

theorem tame_unescape {p : Bool} : (unescapeAppend p s).Tame := by
  fun_induction unescapeAppend p s with
  | case1 => exact Out.tame_ok
  | case2 c s h ih => exact Out.tame_ok.append ih
  | case3 a b s v hv _ ih => exact Out.tame_ok.append ih
  | case4 => simp
  | case5 => simp
  | case6 c s h _ ih => exact Out.tame_ok.append ih

theorem tame_decodeAppend : (decodeAppend t s).Tame := by
  cases t with
  | scheme | schemeColon | port | autoPort => exact Out.tame_ok
  | qmQueryFrag =>
    change (decodeQmQueryFrag s).Tame
    unfold decodeQmQueryFrag
    split
    · exact tame_unescape.append tame_unescape
    · exact tame_unescape
  | _ => exact tame_unescape

theorem tame_encodeUserinfo : (encodeUserinfo s).Tame := by
  unfold encodeUserinfo
  split
  · exact (Out.tame_ok.append Out.tame_ok).append Out.tame_ok
  · exact Out.tame_ok

theorem tame_encodeAuthority : (encodeAuthority s).Tame := by
  unfold encodeAuthority
  split
  · exact (tame_encodeUserinfo.append Out.tame_ok).append Out.tame_ok
  · exact Out.tame_ok

theorem tame_encodeSsAuthority :
    (encodeSsAuthority asserts s).Tame ↔ ¬(asserts = false ∧ s.length = 1) := by
  unfold encodeSsAuthority
  split_ifs with hs hp hl
  · simp [hs]
  · simp [hp.1]
  · -- such a text is one byte long, which no assertion of a prefix of two lets through
    have hpos := List.length_pos_iff.2 hs
    have hpre : ¬lit "//" <+: s := fun h => by
      have : 2 ≤ s.length := h.length_le
      omega
    have ha : asserts = false := by simpa [hpre] using hp
    rw [Out.tame_append_iff Out.stop_ok]
    simp [ha]
    omega
  · refine iff_of_true (Out.tame_ok.append tame_encodeAuthority) fun h => hl ?_
    omega

theorem tame_encodeSchemeAuthority : (encodeSchemeAuthority asserts s).Tame ↔
    ¬(asserts = false ∧ ((find (':' : Byte) s).elim s Prod.snd).length = 1) := by
  unfold encodeSchemeAuthority
  cases find (':' : Byte) s with
  | some q => exact (Out.tame_append_iff Out.stop_ok).trans tame_encodeSsAuthority
  | none => exact tame_encodeSsAuthority

/-- An authority of one byte, with or without a scheme before it, is to be encoded in a build
without assertions, and two bytes are taken off for its `"//"`. -/
def ShortAuthority (asserts : Bool) (t : Tag) (dest codec : Codec) (s : Bytes) : Prop :=
  asserts = false ∧ dest = .urlEncoded ∧ codec = .urlDecoded ∧
    match t with
    | .ssAuthority => s.length = 1
    | .schemeAuthority => ((find (':' : Byte) s).elim s Prod.snd).length = 1
    | _ => False

theorem tame_encodeAppend :
    (encodeAppend asserts t s).Tame ↔ ¬ShortAuthority asserts t .urlEncoded .urlDecoded s := by
  cases t with
  | ssAuthority =>
    simp only [ShortAuthority, true_and]
    exact tame_encodeSsAuthority
  | schemeAuthority =>
    simp only [ShortAuthority, true_and]
    exact tame_encodeSchemeAuthority
  | userinfoAt =>
    refine iff_of_true ?_ (by simp [ShortAuthority])
    change (encodeUserinfoAt asserts s).Tame
    unfold encodeUserinfoAt
    split_ifs
    · exact Out.tame_ok
    · simp
    · exact tame_encodeUserinfo
  | userinfo => exact iff_of_true tame_encodeUserinfo (by simp [ShortAuthority])
  | authority => exact iff_of_true tame_encodeAuthority (by simp [ShortAuthority])
  | qmQueryFrag =>
    refine iff_of_true ?_ (by simp [ShortAuthority])
    change (encodeQmQueryFrag s).Tame
    unfold encodeQmQueryFrag
    split
    · exact Out.tame_ok.append Out.tame_ok
    · exact Out.tame_ok
  | _ => exact iff_of_true Out.tame_ok (by simp [ShortAuthority])

theorem tame_codecCvtAppend :
    (codecCvtAppend asserts t dest src s).Tame ↔ ¬ShortAuthority asserts t dest src s := by
  unfold codecCvtAppend
  split_ifs with hd he
  · exact iff_of_true tame_decodeAppend (by simp [ShortAuthority, hd.1])
  · rw [he.1, he.2]
    exact tame_encodeAppend
  · exact iff_of_true Out.tame_ok fun h => he ⟨h.2.1, h.2.2.1⟩

/-! Query pairs. -/

/-- What the size of a query counts for one byte of a key or a value. -/
def widen (dest codec : Codec) : ℕ := if dest = .urlEncoded ∧ codec = .urlDecoded then 3 else 1

theorem maxCodecCvtSize_query : maxCodecCvtSize .query dest codec n = n * widen dest codec := by
  unfold maxCodecCvtSize widen
  split_ifs
  · rfl
  · exact (Nat.mul_one n).symm

theorem Out.back_append {o p : Out} (h : p.stop = none → p.text ≠ []) :
    (o ++ p).back = o ++ p.back := by
  cases ho : o.stop with
  | some e =>
    rw [append_of_stop ho, append_of_stop ho]
    simp [back, ho]
  | none =>
    cases hp : p.stop with
    | some e =>
      have hback : p.back = p := by simp [back, hp]
      have hstop := (append_of_none (p := p) ho).2.2
      rw [hback, back]
      simp [hstop, hp]
    | none =>
      obtain ⟨ht, hk, hs⟩ := append_of_none (p := p) ho
      have hback : p.back.text = p.text.dropLast ∧ p.back.peak = p.peak ∧ p.back.stop = none := by
        simp [back, hp]
      obtain ⟨ht', hk', hs'⟩ := append_of_none (p := p.back) ho
      have hall : (o ++ p).back.text = (o ++ p).text.dropLast ∧
          (o ++ p).back.peak = (o ++ p).peak ∧ (o ++ p).back.stop = none := by
        simp [back, hs, hp]
      ext1
      · rw [hall.1, ht, ht', hback.1, List.dropLast_append_of_ne_nil (h hp)]
      · rw [hall.2.1, hk, hk', hback.2.1]
      · rw [hall.2.2, hs', hback.2.2]

/-- A pair, of which `amp` is the last byte. -/
def pairSlots (asserts : Bool) (dest codec : Codec) (amp : Slot) (kv : Bytes × Value) : List Slot :=
  cvtSlots asserts .query dest codec kv.1 ++ [.room 1 ['=']] ++
    if kv.2.fails asserts then [.failed (kv.2.maxStringifySize * widen dest codec + 1) .assertion]
    else cvtSlots asserts .query dest codec kv.2.text ++
      [.room ((kv.2.maxStringifySize - kv.2.text.length) * widen dest codec) []] ++ [amp]

/-- The last `'&'` is taken back. -/
def pairsSlots (asserts : Bool) (dest codec : Codec) : List (Bytes × Value) → List Slot
  | [] => []
  | [kv] => pairSlots asserts dest codec (.takenBack '&') kv
  | kv :: kvs =>
    pairSlots asserts dest codec (.room 1 ['&']) kv ++ pairsSlots asserts dest codec kvs

theorem covers_cvt_query (asserts : Bool) (dest codec : Codec) (s : Bytes) :
    Covers (cvtSlots asserts .query dest codec s)
    (codecCvtAppend asserts .query dest codec s) (s.length * widen dest codec) :=
  (covers_codecCvtAppend ..).of_eq maxCodecCvtSize_query

theorem covers_pair (asserts : Bool) (dest codec : Codec) {amp : Slot} {o : Out}
    (hamp : Covers [amp] o 1) (kv : Bytes × Value) :
    Covers (pairSlots asserts dest codec amp kv)
      (codecCvtAppend asserts .query dest codec kv.1 ++ .ok ['='] ++
        if kv.2.fails asserts then .halt .assertion
        else codecCvtAppend asserts .query dest codec kv.2.text ++ o)
      ((kv.1.length + kv.2.maxStringifySize) * widen dest codec + 2) := by
  have hle := kv.2.length_text_le
  have heq := (covers_cvt_query asserts dest codec kv.1).append (covers_room (s := ['=']) (n := 1) le_rfl)
  unfold pairSlots
  split_ifs
  · refine (heq.append covers_failed).of_eq ?_
    rw [add_mul]
    omega
  · have hroom := (covers_cvt_query asserts dest codec kv.2.text).append (covers_room (s := [])
      (n := (kv.2.maxStringifySize - kv.2.text.length) * widen dest codec) (Nat.zero_le _))
    rw [Out.append_ok_nil, ← add_mul, Nat.add_sub_cancel' hle] at hroom
    refine (heq.append (hroom.append hamp)).of_eq ?_
    rw [add_mul]
    omega

theorem appendQueryPair_eq (kv : Bytes × Value) : appendQueryPair asserts dest codec kv =
    codecCvtAppend asserts .query dest codec kv.1 ++ .ok ['='] ++
      if kv.2.fails asserts then .halt .assertion
      else codecCvtAppend asserts .query dest codec kv.2.text ++ .ok ['&'] := by
  unfold appendQueryPair
  rw [kv.2.stringify_eq]
  split_ifs <;> rfl

theorem back_appendQueryPair (kv : Bytes × Value) : (appendQueryPair asserts dest codec kv).back =
    codecCvtAppend asserts .query dest codec kv.1 ++ .ok ['='] ++
      if kv.2.fails asserts then .halt .assertion
      else codecCvtAppend asserts .query dest codec kv.2.text ++ (Out.ok ['&']).back := by
  rw [appendQueryPair_eq]
  split_ifs
  · rw [Out.back_append (by simp)]
    rfl
  · rw [← Out.append_assoc, Out.back_append (by simp), Out.append_assoc]

/-- What a pair leaves behind is not empty. -/
theorem text_appendQueryPairs_ne_nil {kv : Bytes × Value} {kvs : List (Bytes × Value)}
    (h : (appendQueryPairs asserts dest codec (kv :: kvs)).stop = none) :
    (appendQueryPairs asserts dest codec (kv :: kvs)).text ≠ [] := by
  rw [appendQueryPairs, appendQueryPair_eq] at h ⊢
  simp only [Out.append_assoc] at h ⊢
  cases hs : (codecCvtAppend asserts .query dest codec kv.1).stop with
  | some e =>
    rw [Out.append_of_stop hs, hs] at h
    cases h
  | none =>
    rw [(Out.append_of_none hs).1, Out.text_ok_append]
    simp

theorem covers_pairs (asserts : Bool) (dest codec : Codec) (kvs : List (Bytes × Value)) :
    Covers (pairsSlots asserts dest codec kvs)
    (appendQueryPairs asserts dest codec kvs).back
    ((kvs.map fun kv => kv.1.length + kv.2.maxStringifySize).sum * widen dest codec +
      kvs.length * 2) := by
  induction kvs with
  | nil => exact Covers.nil.of_eq (by simp)
  | cons kv kvs ih =>
    cases kvs with
    | nil =>
      have hamp : Covers [Slot.takenBack '&'] (Out.ok ['&']).back 1 :=
        ⟨by simp [Slot.takenBack], by simp [Slot.takenBack], by simp [Slot.takenBack]⟩
      have h := covers_pair asserts dest codec hamp kv
      rw [← back_appendQueryPair] at h
      simpa [appendQueryPairs, pairsSlots] using h
    | cons kv' kvs =>
      have h := covers_pair asserts dest codec (covers_room (s := ['&']) (n := 1) le_rfl) kv
      rw [← appendQueryPair_eq] at h
      rw [appendQueryPairs, Out.back_append text_appendQueryPairs_ne_nil]
      refine (h.append ih).of_eq ?_
      rw [List.map_cons (a := kv), List.sum_cons, add_mul (kv.1.length + kv.2.maxStringifySize),
        List.length_cons (a := kv)]
      omega

theorem tame_appendQueryPair (kv : Bytes × Value) :
    (appendQueryPair asserts dest codec kv).Tame := by
  have hcvt : ∀ s, (codecCvtAppend asserts .query dest codec s).Tame := fun s =>
    tame_codecCvtAppend.2 (by simp [ShortAuthority])
  unfold appendQueryPair
  refine ((hcvt _).append Out.tame_ok).append ?_
  rw [kv.2.stringify_eq]
  split_ifs
  · simp
  · exact (hcvt _).append Out.tame_ok

theorem tame_appendQueryPairs (kvs : List (Bytes × Value)) :
    (appendQueryPairs asserts dest codec kvs).Tame := by
  induction kvs with
  | nil => exact Out.tame_ok
  | cons kv kvs ih => exact (tame_appendQueryPair kv).append ih

/-! Directory paths. -/

/-- The text ends in a `'/'`, or is to be decoded and ends in the escape of one. -/
def EndsInSlash (decoded : Bool) (s : Bytes) : Prop :=
  lit "/" <:+ s ∨ decoded = true ∧ (lit "%2F" <:+ s ∨ lit "%2f" <:+ s)

instance {d : Bool} : Decidable (EndsInSlash d s) := inferInstanceAs (Decidable (_ ∨ _))

theorem getLast_eq_slash : s.getLast? = some ('/' : Byte) ↔ EndsInSlash false s := by
  simp only [EndsInSlash, Bool.false_eq_true, false_and, or_false]
  exact List.singleton_suffix_iff_getLast?_eq_some.symm

theorem unhex_eq_slash {a b : Byte} :
    unhex a b = some ('/' : Byte) ↔ a = ('2' : Byte) ∧ (b = ('F' : Byte) ∨ b = ('f' : Byte)) := by
  have hhi : ∀ c : Byte, hexToDec c = 2 → c = '2' := forall_byte (by decide +kernel)
  have hlo : ∀ c : Byte, hexToDec c = 15 → c = 'F' ∨ c = 'f' := forall_byte (by decide +kernel)
  have hdec : ∀ c : Byte, hexToDec c = 0xff ∨ hexToDec c ∈ (List.range 16).map UInt8.ofNat :=
    forall_byte (by decide +kernel)
  have hval : ∀ x ∈ (List.range 16).map UInt8.ofNat, ∀ y ∈ (List.range 16).map UInt8.ofNat,
      x <<< 4 ||| y = ('/' : Byte) → x = 2 ∧ y = 15 := by
    decide +kernel
  constructor
  · intro h
    obtain ⟨ha, hb⟩ := unhex_eq_some h
    simp only [unhex] at h
    split_ifs at h
    obtain ⟨hx, hy⟩ := hval _ ((hdec a).resolve_left ha) _ ((hdec b).resolve_left hb)
      (Option.some.inj h)
    exact ⟨hhi a hx, hlo b hy⟩
  · rintro ⟨rfl, rfl | rfl⟩ <;> decide

theorem endsInSlash_cons {c : Byte} (hc : c ≠ '%') (hs : s ≠ []) {d : Bool} :
    EndsInSlash d (c :: s) ↔ EndsInSlash d s := by
  simp only [EndsInSlash, List.suffix_cons_iff]
  simp [lit, Ne.symm hc, Ne.symm hs]

theorem text_unescapeAppend_ne_nil {p : Bool} (h : (unescapeAppend p s).stop = none) (hs : s ≠ []) :
    (unescapeAppend p s).text ≠ [] := by
  fun_cases unescapeAppend p s <;> simp_all [unescapeAppend]

theorem getLast_ok_unescape {p : Bool} {x : Byte} (h : (unescapeAppend p s).stop = none) (hs : s ≠ []) :
    (Out.ok [x] ++ unescapeAppend p s).text.getLast? = (unescapeAppend p s).text.getLast? := by
  rw [Out.text_ok_append, List.getLast?_append_of_ne_nil _ (text_unescapeAppend_ne_nil h hs)]

theorem getLast_unescapeAppend {p : Bool} (h : (unescapeAppend p s).stop = none) :
    (unescapeAppend p s).text.getLast? = some ('/' : Byte) ↔ EndsInSlash true s := by
  fun_induction unescapeAppend p s with
  | case1 => decide
  | case2 c s hc ih =>
    rw [Out.stop_ok_append] at h
    obtain ⟨-, rfl⟩ := hc
    by_cases hs : s = []
    · subst hs
      simp only [unescapeAppend_nil, Out.ok_append_ok, Out.text_ok]
      decide
    · rw [getLast_ok_unescape h hs, endsInSlash_cons (by decide) hs]
      exact ih h
  | case3 a b s v hv _ ih =>
    rw [Out.stop_ok_append] at h
    obtain ⟨ha, hb⟩ := unhex_eq_some hv
    have hne : ∀ {c : Byte}, hexToDec c ≠ 0xff → ('%' : Byte) ≠ c := by
      rintro c hc rfl
      exact hc (by decide)
    by_cases hs : s = []
    · -- the escape is the end
      subst hs
      have hslash : ('/' : Byte) ≠ b := by
        rintro rfl
        exact hb (by decide)
      have hkey := unhex_eq_slash (a := a) (b := b)
      rw [hv, Option.some_inj] at hkey
      simp [EndsInSlash, List.suffix_cons_iff, lit, hkey, hslash, hne ha, hne hb]
      simp only [eq_comm (b := a), eq_comm (b := b), ← and_or_left]
    · rw [getLast_ok_unescape h hs]
      refine (ih h).trans ?_
      simp [EndsInSlash, List.suffix_cons_iff, lit, hne ha, hne hb, hs]
  | case4 => simp at h
  | case5 => simp at h
  | case6 c s hp hc ih =>
    rw [Out.stop_ok_append] at h
    by_cases hs : s = []
    · subst hs
      have hpct : ('%' : Byte) ≠ c := Ne.symm hc
      simpa [EndsInSlash, List.suffix_cons_iff, lit, hpct] using eq_comm
    · rw [getLast_ok_unescape h hs, endsInSlash_cons hc hs]
      exact ih h

theorem getLast_escapeAppend :
    (escapeAppend .path s).getLast? = some ('/' : Byte) ↔ EndsInSlash false s := by
  rw [← getLast_eq_slash]
  have hbyte : ∀ c : Byte, (escapeByte .path c).getLast? = some ('/' : Byte) ↔ c = '/' :=
    forall_byte (by decide +kernel)
  obtain rfl | ⟨l, c, rfl⟩ := List.eq_nil_or_concat s
  · rfl
  · rw [List.concat_eq_append, escapeAppend_append, escapeAppend_cons, escapeAppend_nil,
      List.append_nil, List.getLast?_append_of_ne_nil _ escapeByte_ne_nil, hbyte]
    simp

theorem getLast_codecCvtAppend_dirPath
    (h : (codecCvtAppend asserts .dirPath dest codec s).stop = none) :
    (codecCvtAppend asserts .dirPath dest codec s).text.getLast? = some ('/' : Byte) ↔
      EndsInSlash (dest = .urlDecoded ∧ codec = .urlEncoded) s := by
  unfold codecCvtAppend at h ⊢
  split_ifs at h ⊢ with hd he
  · rw [decide_eq_true hd]
    exact getLast_unescapeAppend h
  · rw [decide_eq_false hd]
    exact getLast_escapeAppend
  · rw [decide_eq_false hd]
    exact getLast_eq_slash

/-! Components. -/

namespace WriteComp

/-- A component. The text of an address can be longer than what is left of its 45 bytes by its
brackets. -/
def slots (asserts : Bool) (dest : Codec) : WriteComp t → List Slot
  | str _ codec s => cvtSlots asserts t dest codec s
  | ipaddr text _ => [.room 45 ([('[' : Byte)] ++ text ++ [(']' : Byte)])]
  | port n => [n.slot asserts]
  | autoPort n => [.room (1 + n.maxStringifySize) []]
  | pairs codec kvs => pairsSlots asserts dest codec kvs

/-- What follows a directory path that does not end in a `'/'`. No room is reserved for it. -/
def slashSlot (dest : Codec) : WriteComp .dirPath → Slot
  | str _ codec s =>
    .room 0 (if EndsInSlash (dest = .urlDecoded ∧ codec = .urlEncoded) s then [] else ['/'])

/-- The component is an address. -/
def isAddress : WriteComp t → Bool
  | ipaddr _ _ => true
  | _ => false

theorem slots_eq (k : WriteComp t) : Slot.written (k.slots asserts dest) = k.write asserts dest ∧
    Slot.reserved (k.slots asserts dest) = k.maxWriteSize dest ∧
    (k.isAddress = false → ∀ x ∈ k.slots asserts dest, x.excess = 0) := by
  cases k with
  | str h codec s =>
    have hc := covers_codecCvtAppend asserts t dest codec s
    exact ⟨hc.written, hc.reserved, fun _ => hc.excess⟩
  | ipaddr text u => exact ⟨by simp [slots, Slot.room, write], rfl, nofun⟩
  | port n =>
    have hc := n.covers_stringify asserts
    exact ⟨hc.written, hc.reserved, fun _ => hc.excess⟩
  | autoPort n =>
    have hc := covers_room (s := []) (n := 1 + n.maxStringifySize) (Nat.zero_le _)
    exact ⟨hc.written, hc.reserved, fun _ => hc.excess⟩
  | pairs codec kvs =>
    have hc := covers_pairs asserts dest codec kvs
    refine ⟨hc.written, hc.reserved.trans ?_, fun _ => hc.excess⟩
    simp only [maxWriteSize, widen]
    split_ifs
    · rfl
    · rw [Nat.mul_one]

/-- The component is an authority of one byte that is to be encoded. -/
def Short (asserts : Bool) (dest : Codec) : WriteComp t → Prop
  | str _ codec s => ShortAuthority asserts t dest codec s
  | _ => False

theorem tame_write (k : WriteComp t) :
    (k.write asserts dest).Tame ↔ ¬k.Short asserts dest := by
  cases k with
  | str _ codec s => exact tame_codecCvtAppend
  | ipaddr text u => exact iff_of_true Out.tame_ok id
  | port n =>
    refine iff_of_true ?_ id
    rw [write, n.stringify_eq]
    split_ifs <;> simp
  | autoPort n => exact iff_of_true Out.tame_ok id
  | pairs codec kvs => exact iff_of_true (tame_appendQueryPairs kvs).back id

theorem tame_write_of_ne (h : t ≠ .ssAuthority) (h' : t ≠ .schemeAuthority) (k : WriteComp t) :
    (k.write asserts dest).Tame := by
  refine k.tame_write.2 ?_
  cases k with
  | str ht codec s =>
    rintro ⟨-, -, -, hs⟩
    cases t <;> first | exact hs | exact h rfl | exact h' rfl
  | _ => exact id

/-- `append_colon_port_to`, where `known` is the port of the scheme. -/
def colonPortSlot (asserts : Bool) (known : ℕ) : WriteComp .autoPort → Slot
  | autoPort n =>
    if n.is 0 ∨ n.is known then .room (1 + n.maxStringifySize) []
    else if asserts ∧ n.fills then .failed (1 + n.maxStringifySize) .assertion
    else .room (1 + n.maxStringifySize) ((':' : Byte) :: n.text)
  | str h _ _ => absurd rfl h

theorem covers_appendColonPortTo (asserts : Bool) (dest : Codec) (k : WriteComp .autoPort)
    (uri : Bytes) :
    Covers [k.colonPortSlot asserts (prefixToWellKnownPort uri)] (k.appendColonPortTo asserts uri)
      (k.maxWriteSize dest) := by
  cases k with
  | str h _ _ => exact absurd rfl h
  | autoPort n =>
    simp only [colonPortSlot, appendColonPortTo, maxWriteSize, n.stringify_eq]
    split_ifs
    · exact covers_room (Nat.zero_le _)
    · exact covers_failed
    · have hlen := n.length_text_le
      change Covers _ (.ok [':'] ++ .ok n.text) _
      rw [Out.ok_append_ok]
      refine covers_room ?_
      rw [List.length_cons]
      omega

theorem tame_appendColonPortTo (k : WriteComp .autoPort) (uri : Bytes) :
    (k.appendColonPortTo asserts uri).Tame := by
  cases k with
  | str h _ _ => exact absurd rfl h
  | autoPort n =>
    simp only [appendColonPortTo, n.stringify_eq]
    split_ifs <;> simp

end WriteComp

end Jkl.Uri
