import Jkl.Lib.Numeral
import Jkl.Uri.Types
import Mathlib.Algebra.Order.Ring.Int
import Mathlib.Data.List.TakeWhile

/-! Integers as text: `stringify`, with its assertions about the storage, and `numerify`. -/
namespace Jkl.Util

open Uri (Byte Bytes lit)

/-! `std::to_chars` and `std::from_chars`. -/

def digitChar (d : ℕ) : Byte :=
  if d < 10 then ('0' : Byte) + UInt8.ofNat d else ('a' : Byte) + UInt8.ofNat (d - 10)

/-- The value of a digit or a letter of either case. -/
def digitVal (c : Byte) : Option ℕ :=
  if ('0' : Byte) ≤ c ∧ c ≤ ('9' : Byte) then some (c - ('0' : Byte)).toNat
  else if ('a' : Byte) ≤ c ∧ c ≤ ('z' : Byte) then some ((c - ('a' : Byte)).toNat + 10)
  else if ('A' : Byte) ≤ c ∧ c ≤ ('Z' : Byte) then some ((c - ('A' : Byte)).toNat + 10)
  else none

def isDigitIn (base : ℕ) (c : Byte) : Bool := (digitVal c).any (· < base)

/-- The sizes `stringify_integer_max_bytes` knows. -/
inductive Width where
  | w1
  | w2
  | w4
  | w8
  | w16
deriving DecidableEq, Repr

def Width.bytes : Width → ℕ
  | w1 => 1
  | w2 => 2
  | w4 => 4
  | w8 => 8
  | w16 => 16

/-- The digits that the decimal numeral of an unsigned value may have. -/
def Width.digits10 : Width → ℕ
  | w1 => 3
  | w2 => 5
  | w4 => 10
  | w8 => 20
  | w16 => 39

/-- An integral type. -/
structure IntType where
  width : Width
  signed : Bool
deriving DecidableEq, Repr

namespace IntType

def bits (t : IntType) : ℕ := t.width.bytes * 8

def min (t : IntType) : ℤ := if t.signed then -2 ^ (t.bits - 1) else 0

def max (t : IntType) : ℤ := if t.signed then 2 ^ (t.bits - 1) - 1 else 2 ^ t.bits - 1

/-- The values of the type. -/
def InRange (t : IntType) (v : ℤ) : Prop := t.min ≤ v ∧ v ≤ t.max

instance instDecidableInRange (t : IntType) (v : ℤ) : Decidable (t.InRange v) :=
  inferInstanceAs (Decidable (_ ∧ _))

end IntType

/-- What `std::to_chars` writes, given enough room. -/
def toChars (v : ℤ) (base : ℕ) : Bytes :=
  (if v < 0 then [('-' : Byte)] else []) ++ (Numeral.digits base v.natAbs).map digitChar

inductive Errc where
  | invalidArgument
  | resultOutOfRange
deriving DecidableEq, Repr

/-- `std::from_chars`: what is left of the text, and the value. A minus sign is part of the pattern
for a signed type only. -/
def fromChars (t : IntType) (s : Bytes) (base : ℕ) : Bytes × Except Errc ℤ :=
  let neg := t.signed && s.head? == some ('-' : Byte)
  let body := if neg then s.tail else s
  let ds := body.takeWhile (isDigitIn base)
  if ds = [] then (s, .error .invalidArgument)
  else
    let n : ℤ := Numeral.value base (ds.filterMap digitVal)
    let v := if neg then -n else n
    (body.dropWhile (isDigitIn base), if t.InRange v then .ok v else .error .resultOutOfRange)

/-- `numerify`, with what it leaves in the variable that was `v`. -/
def numerify (t : IntType) (s : Bytes) (v : ℤ) (base : ℕ) : Bool × ℤ :=
  match fromChars t s base with
  | (e, .ok n) => (e = [], n)
  | (_, .error _) => (false, v)

def toNum (t : IntType) (s : Bytes) (base : ℕ) : Option ℤ :=
  let r := numerify t s 0 base
  if r.1 then some r.2 else none

/-! `stringify`. -/

/-- The assertions. -/
inductive Assertion where
  | base
  | toChars
  | setEnd
deriving DecidableEq, Repr

/-- `stringify_integer_max_bytes`. -/
def maxBytes (base : ℕ) (t : IntType) : ℕ :=
  let sv := t.width.bytes
  if base = 2 then sv * 8
  else if base = 8 then sv * 8 / 3 + 1
  else if base = 16 then sv * 8 / 4
  else t.width.digits10 + t.signed.toNat

/-- `set_end` of a storage for `cap` characters. -/
def setEnd (cap : ℕ) (text : Bytes) : Except Assertion Bytes :=
  if text.length < cap then .ok text else .error .setEnd

/-- `stringify(v, base)`. -/
def stringify (t : IntType) (v : ℤ) (base : ℕ) : Except Assertion Bytes :=
  if base = 2 ∨ base = 8 ∨ base = 10 ∨ base = 16 then
    let cap := maxBytes 2 t
    let text := toChars v base
    if text.length ≤ cap then setEnd cap text else .error .toChars
  else .error .base

/-- `stringify(v)`, of at most eight bytes. `itoa` stands for `i32toa`, `u32toa`, `i64toa` and
`u64toa`. -/
def stringify10 (itoa : ℤ → Bytes) (t : IntType) (v : ℤ) : Except Assertion Bytes :=
  setEnd (maxBytes 10 t) (itoa v)

variable {t : IntType} {s e ds text : Bytes} {v w old : ℤ} {base d : ℕ} {c : Byte}

/-! Digits. -/

theorem digitVal_digitChar (hd : d < 36) : digitVal (digitChar d) = some d := by
  have h : ∀ d < 36, digitVal (digitChar d) = some d := by decide
  exact h d hd

theorem isDigitIn_digitChar (hd : d < base) (hb : base ≤ 36) : isDigitIn base (digitChar d) := by
  simp [isDigitIn, digitVal_digitChar (Nat.lt_of_lt_of_le hd hb), hd]

theorem not_isDigitIn_minus : isDigitIn base ('-' : Byte) = false := by
  have h : digitVal ('-' : Byte) = none := by decide
  simp [isDigitIn, h]

theorem exists_of_isDigitIn (h : isDigitIn base c) : ∃ d, digitVal c = some d ∧ d < base := by
  unfold isDigitIn at h
  cases hc : digitVal c with
  | none => simp [hc] at h
  | some d => exact ⟨d, rfl, by simpa [hc] using h⟩

theorem filterMap_digitVal_map {l : List ℕ} (h : ∀ d ∈ l, d < 36) :
    (l.map digitChar).filterMap digitVal = l := by
  induction l with
  | nil => simp
  | cons d l ih =>
    obtain ⟨hd, hl⟩ := List.forall_mem_cons.1 h
    simp [digitVal_digitChar hd, ih hl]

theorem length_filterMap_digitVal (h : ∀ c ∈ ds, isDigitIn base c) :
    (ds.filterMap digitVal).length = ds.length := by
  induction ds with
  | nil => simp
  | cons c ds ih =>
    obtain ⟨hc, hds⟩ := List.forall_mem_cons.1 h
    obtain ⟨d, hd, -⟩ := exists_of_isDigitIn hc
    simp [hd, ih hds]

theorem lt_of_mem_filterMap_digitVal (h : ∀ c ∈ ds, isDigitIn base c)
    (hd : d ∈ ds.filterMap digitVal) : d < base := by
  obtain ⟨c, hc, hcd⟩ := List.mem_filterMap.1 hd
  simpa [isDigitIn, hcd] using h c hc

/-! Reading: a sign where the type has one, digits, and a value in range. -/

/-- What follows a numeral that no further digit makes longer. -/
def EndsDigits (base : ℕ) (e : Bytes) : Prop := ∀ c ∈ e.head?, ¬isDigitIn base c

/-- The texts that denote `v`. -/
def Denotes (t : IntType) (base : ℕ) (s : Bytes) (v : ℤ) : Prop :=
  ∃ ds ≠ [], (∀ c ∈ ds, isDigitIn base c) ∧
    (s = ds ∧ v = Numeral.value base (ds.filterMap digitVal) ∨
      t.signed ∧ s = ('-' : Byte) :: ds ∧ v = -Numeral.value base (ds.filterMap digitVal))

theorem takeWhile_digits (h : ∀ c ∈ ds, isDigitIn base c) (he : EndsDigits base e) :
    (ds ++ e).takeWhile (isDigitIn base) = ds ∧ (ds ++ e).dropWhile (isDigitIn base) = e := by
  have hstop : e.takeWhile (isDigitIn base) = [] ∧ e.dropWhile (isDigitIn base) = e := by
    cases e with
    | nil => simp
    | cons c e =>
      have hc : isDigitIn base c = false := by simpa using he c rfl
      simp [hc]
  rw [List.takeWhile_append_of_pos h, List.dropWhile_append_of_pos h, hstop.1, hstop.2,
    List.append_nil]
  simp

theorem endsDigits_dropWhile : EndsDigits base (s.dropWhile (isDigitIn base)) := by
  induction s with
  | nil => simp [EndsDigits]
  | cons c s ih =>
    by_cases hc : isDigitIn base c = true
    · rwa [List.dropWhile_cons_of_pos hc]
    · rw [List.dropWhile_cons_of_neg hc]
      simpa [EndsDigits] using hc

theorem head?_ne_minus (hne : ds ≠ []) (h : ∀ c ∈ ds, isDigitIn base c) :
    (ds ++ e).head? ≠ some ('-' : Byte) := by
  obtain ⟨c, ds, rfl⟩ := List.exists_cons_of_ne_nil hne
  intro hc
  have hd := h c List.mem_cons_self
  rw [List.cons_append, List.head?_cons, Option.some.injEq] at hc
  simp [hc, not_isDigitIn_minus] at hd

theorem fromChars_of_denotes (hd : Denotes t base s v) (he : EndsDigits base e) :
    fromChars t (s ++ e) base =
      (e, if t.InRange v then .ok v else .error .resultOutOfRange) := by
  obtain ⟨ds, hne, h, ⟨rfl, rfl⟩ | ⟨ht, rfl, rfl⟩⟩ := hd
  · have hneg : (t.signed && (s ++ e).head? == some ('-' : Byte)) = false := by
      simpa using fun _ => head?_ne_minus hne h
    obtain ⟨htake, hdrop⟩ := takeWhile_digits h he
    simp only [fromChars, hneg, htake, hdrop, hne, Bool.false_eq_true, if_false]
  · obtain ⟨htake, hdrop⟩ := takeWhile_digits h he
    simp [fromChars, ht, htake, hdrop, hne]

theorem denotes_of_fromChars (h : fromChars t s base = (e, .ok v)) :
    ∃ p, s = p ++ e ∧ EndsDigits base e ∧ Denotes t base p v ∧ t.InRange v := by
  by_cases hneg : (t.signed && s.head? == some ('-' : Byte)) = true
  · obtain ⟨ht, hhead⟩ := Bool.and_eq_true_iff.1 hneg
    obtain ⟨body, rfl⟩ : ∃ body, s = ('-' : Byte) :: body := by
      cases s with
      | nil => simp at hhead
      | cons c body => exact ⟨body, by simpa using hhead⟩
    simp only [fromChars, hneg, if_true, List.tail_cons] at h
    split_ifs at h with hne hr
    · simp at h
    · simp only [Prod.mk.injEq, Except.ok.injEq] at h
      obtain ⟨rfl, rfl⟩ := h
      exact ⟨_, by rw [List.cons_append, List.takeWhile_append_dropWhile],
        endsDigits_dropWhile, ⟨_, hne, fun _ => List.mem_takeWhile_imp, .inr ⟨ht, rfl, rfl⟩⟩, hr⟩
    · simp at h
  · simp only [fromChars, hneg, if_false, Bool.false_eq_true] at h
    split_ifs at h with hne hr
    · simp at h
    · simp only [Prod.mk.injEq, Except.ok.injEq] at h
      obtain ⟨rfl, rfl⟩ := h
      exact ⟨_, by rw [List.takeWhile_append_dropWhile],
        endsDigits_dropWhile, ⟨_, hne, fun _ => List.mem_takeWhile_imp, .inl ⟨rfl, rfl⟩⟩, hr⟩
    · simp at h

theorem numerify_eq_true_iff :
    numerify t s old base = (true, v) ↔ Denotes t base s v ∧ t.InRange v := by
  constructor
  · intro h
    unfold numerify at h
    split at h
    · rename_i e n hfrom
      obtain ⟨he, rfl⟩ : e = [] ∧ n = v := by simpa using h
      subst he
      obtain ⟨p, rfl, -, hd⟩ := denotes_of_fromChars hfrom
      simpa using hd
    · simp at h
  · rintro ⟨hd, hr⟩
    have h := fromChars_of_denotes (e := []) hd (by simp [EndsDigits])
    rw [List.append_nil, if_pos hr] at h
    simp [numerify, h]

theorem toNum_eq_some_iff : toNum t s base = some v ↔ Denotes t base s v ∧ t.InRange v := by
  have hnum : numerify t s 0 base = (true, v) ↔ _ := numerify_eq_true_iff
  rw [← hnum, toNum]
  constructor
  · intro h
    split_ifs at h with hok
    exact Prod.ext hok (Option.some.inj h)
  · intro h
    simp [h]

/-- A refused text leaves the value of the numeral that it begins with, if the type has it. -/
theorem numerify_eq_false_iff :
    numerify t s old base = (false, v) ↔
      (∃ p e, e ≠ [] ∧ s = p ++ e ∧ EndsDigits base e ∧ Denotes t base p v ∧ t.InRange v) ∨
        v = old ∧ ∀ p e w, s = p ++ e → EndsDigits base e → Denotes t base p w → ¬t.InRange w := by
  constructor
  · intro h
    unfold numerify at h
    split at h
    · rename_i e n hfrom
      obtain ⟨he, rfl⟩ : e ≠ [] ∧ n = v := by simpa using h
      obtain ⟨p, hs, hend, hd, hr⟩ := denotes_of_fromChars hfrom
      exact .inl ⟨p, e, he, hs, hend, hd, hr⟩
    · rename_i e err hfrom
      refine .inr ⟨by simpa using h.symm, ?_⟩
      rintro p e w rfl hend hd hr
      rw [fromChars_of_denotes hd hend, if_pos hr] at hfrom
      simp at hfrom
  · rintro (⟨p, e, he, rfl, hend, hd, hr⟩ | ⟨rfl, hnone⟩)
    · simp [numerify, fromChars_of_denotes hd hend, hr, he]
    · unfold numerify
      split
      · rename_i e n hfrom
        obtain ⟨p, hs, hend, hd, hr⟩ := denotes_of_fromChars hfrom
        exact absurd hr (hnone p e n hs hend hd)
      · rfl

/-! Writing. -/

theorem forall_isDigitIn_digits (hb : 1 < base) (hb' : base ≤ 36) {n : ℕ} :
    ∀ c ∈ (Numeral.digits base n).map digitChar, isDigitIn base c := by
  intro c hc
  obtain ⟨d, hd, rfl⟩ := List.mem_map.1 hc
  exact isDigitIn_digitChar (Numeral.lt_of_mem_digits hb hd) hb'

theorem value_filterMap_digits (hb : 1 < base) (hb' : base ≤ 36) {n : ℕ} :
    Numeral.value base (((Numeral.digits base n).map digitChar).filterMap digitVal) = n := by
  rw [filterMap_digitVal_map, Numeral.value_digits]
  intro d hd
  exact Nat.lt_of_lt_of_le (Numeral.lt_of_mem_digits hb hd) hb'

theorem signed_of_neg (hr : t.InRange v) (hv : v < 0) : t.signed := by
  by_contra ht
  have hmin := hr.1
  simp only [IntType.min, ht] at hmin
  simp at hmin
  omega

theorem toChars_denotes (hb : 1 < base) (hb' : base ≤ 36) (hr : t.InRange v) :
    Denotes t base (toChars v base) v := by
  refine ⟨(Numeral.digits base v.natAbs).map digitChar, ?_, forall_isDigitIn_digits hb hb', ?_⟩
  · simpa using Numeral.digits_ne_nil
  · rw [value_filterMap_digits hb hb']
    by_cases hv : v < 0
    · exact .inr ⟨signed_of_neg hr hv, by simp [toChars, hv], by omega⟩
    · exact .inl ⟨by simp [toChars, hv], by omega⟩

theorem length_toChars :
    (toChars v base).length =
      (if v < 0 then 1 else 0) + (Numeral.digits base v.natAbs).length := by
  rw [toChars, List.length_append, List.length_map]
  split_ifs <;> simp

theorem length_toChars_le (hb : 1 < base) (hd : Denotes t base s v) :
    (toChars v base).length ≤ s.length := by
  obtain ⟨ds, hne, h, hs⟩ := hd
  have hlen : (Numeral.digits base v.natAbs).length ≤ ds.length := by
    have hv : v.natAbs = Numeral.value base (ds.filterMap digitVal) := by omega
    rw [hv, ← length_filterMap_digitVal h]
    apply Numeral.length_digits_value_le hb
    · rw [← List.length_pos_iff, length_filterMap_digitVal h]
      exact List.length_pos_iff.2 hne
    · intro d hd
      exact lt_of_mem_filterMap_digitVal h hd
  rw [length_toChars]
  rcases hs with ⟨rfl, hv⟩ | ⟨-, rfl, -⟩
  · rw [if_neg (by omega)]
    omega
  · rw [List.length_cons]
    split_ifs <;> omega

theorem IntType.eight_le_bits (t : IntType) : 8 ≤ t.bits := by
  unfold IntType.bits
  cases t.width <;> simp [Width.bytes]

theorem natAbs_lt_pow (hv : 0 ≤ v) {k b : ℕ} : v.natAbs < b ^ k ↔ v < (b : ℤ) ^ k := by
  rw [← Nat.cast_lt (α := ℤ), Nat.cast_pow, Int.natAbs_of_nonneg hv]

theorem natAbs_lt_of_inRange (hr : t.InRange v) : v.natAbs < 2 ^ t.bits := by
  obtain ⟨hmin, hmax⟩ := hr
  have hlt : (2 : ℤ) ^ (t.bits - 1) < 2 ^ t.bits := by
    have h8 := t.eight_le_bits
    exact pow_lt_pow_right₀ (by norm_num) (by omega)
  have hpos : (0 : ℤ) < 2 ^ (t.bits - 1) := by positivity
  rw [← Nat.cast_lt (α := ℤ), Nat.cast_pow, Int.natCast_natAbs, abs_lt]
  unfold IntType.min at hmin
  unfold IntType.max at hmax
  push_cast
  split_ifs at hmin hmax <;> constructor <;> omega

theorem length_toChars_lt (hb : 1 < base) {k : ℕ} (hk : 2 < k) :
    (toChars v base).length < k ↔ if v < 0 then v.natAbs < base ^ (k - 2) else
      v.natAbs < base ^ (k - 1) := by
  rw [length_toChars]
  split_ifs with hv
  · rw [← Numeral.length_digits_le_iff hb (by omega)]
    omega
  · rw [← Numeral.length_digits_le_iff hb (by omega)]
    omega

/-- A storage of one character a bit has room for a numeral of base eight or more. -/
theorem length_toChars_lt_bits (hb : 8 ≤ base) (hr : t.InRange v) :
    (toChars v base).length < t.bits := by
  have h8 := t.eight_le_bits
  have hlt : ∀ k, t.bits ≤ 3 * k → v.natAbs < base ^ k := by
    intro k hk
    calc v.natAbs < 2 ^ t.bits := natAbs_lt_of_inRange hr
      _ ≤ 2 ^ (3 * k) := Nat.pow_le_pow_right (by norm_num) hk
      _ = 8 ^ k := by rw [pow_mul]; norm_num
      _ ≤ base ^ k := Nat.pow_le_pow_left hb k
  rw [length_toChars_lt (by omega) (by omega)]
  split_ifs
  · exact hlt _ (by omega)
  · exact hlt _ (by omega)

theorem stringify_eq_ok_iff :
    stringify t v base = .ok text ↔
      (base = 2 ∨ base = 8 ∨ base = 10 ∨ base = 16) ∧ (toChars v base).length < t.bits ∧
        text = toChars v base := by
  have hcap : maxBytes 2 t = t.bits := by simp [maxBytes, IntType.bits]
  simp only [stringify, setEnd, hcap]
  split_ifs with hb hle hlt
  · simp [hb, hlt, eq_comm]
  · simp [hlt]
  · simp
    omega
  · simp [hb]

/-- The text reads back as the value, and no shorter one does. -/
theorem numerify_toChars (hb : 1 < base) (hb' : base ≤ 36) (hr : t.InRange v) :
    numerify t (toChars v base) old base = (true, v) ∧
      ∀ s, numerify t s old base = (true, v) → (toChars v base).length ≤ s.length := by
  constructor
  · exact numerify_eq_true_iff.2 ⟨toChars_denotes hb hb' hr, hr⟩
  · intro s h
    exact length_toChars_le hb (numerify_eq_true_iff.1 h).1

theorem length_toChars_two_lt_bits :
    (toChars v 2).length < t.bits ↔
      (0 ≤ v → v < 2 ^ (t.bits - 1)) ∧ (v < 0 → -v < 2 ^ (t.bits - 2)) := by
  have h8 := t.eight_le_bits
  rw [length_toChars_lt (by omega) (by omega)]
  split_ifs with hv
  · rw [← Int.natAbs_neg, natAbs_lt_pow (by omega)]
    constructor
    · intro h
      exact ⟨fun h0 => absurd hv (by omega), fun _ => h⟩
    · intro h
      exact h.2 hv
  · rw [natAbs_lt_pow (by omega)]
    constructor
    · intro h
      exact ⟨fun _ => h, fun h0 => absurd h0 hv⟩
    · intro h
      exact h.1 (by omega)

theorem two_pow_bits_le : 2 ^ t.bits ≤ 10 ^ t.width.digits10 := by
  unfold IntType.bits
  cases t.width <;> norm_num [Width.bytes, Width.digits10]

theorem two_le_digits10 : 2 < t.width.digits10 := by
  cases t.width <;> simp [Width.digits10]

theorem length_toChars_lt_maxBytes (hr : t.InRange v) :
    (toChars v 10).length < maxBytes 10 t ↔
      t.signed ∧ 0 ≤ v ∨ v.natAbs < 10 ^ (t.width.digits10 - 1) := by
  have hd := two_le_digits10 (t := t)
  have hlt : v.natAbs < 10 ^ t.width.digits10 :=
    Nat.lt_of_lt_of_le (natAbs_lt_of_inRange hr) two_pow_bits_le
  have hcap : maxBytes 10 t = t.width.digits10 + t.signed.toNat := by simp [maxBytes]
  rw [length_toChars_lt (by omega) (by omega), hcap]
  by_cases ht : t.signed
  · by_cases hv : v < 0
    · simp [ht, hv]
    · simp [ht, hv, hlt, not_lt.1 hv]
  · have hv : ¬v < 0 := fun hv => ht (signed_of_neg hr hv)
    simp [ht, hv]

/-- `stringify` to a base has room for every value, save the longest of base two. -/
theorem stringify_round_trip (hr : t.InRange v) :
    ((∃ text, stringify t v base = .ok text) ↔
      (base = 2 ∨ base = 8 ∨ base = 10 ∨ base = 16) ∧
        (base = 2 → (0 ≤ v → v < 2 ^ (t.bits - 1)) ∧ (v < 0 → -v < 2 ^ (t.bits - 2)))) ∧
      ∀ text, stringify t v base = .ok text →
        numerify t text old base = (true, v) ∧
          ∀ s, numerify t s old base = (true, v) → text.length ≤ s.length := by
  constructor
  · simp only [stringify_eq_ok_iff]
    constructor
    · rintro ⟨text, hb, hlt, -⟩
      refine ⟨hb, ?_⟩
      rintro rfl
      exact length_toChars_two_lt_bits.1 hlt
    · rintro ⟨hb, hfit⟩
      refine ⟨_, hb, ?_, rfl⟩
      by_cases h2 : base = 2
      · subst h2
        exact length_toChars_two_lt_bits.2 (hfit rfl)
      · exact length_toChars_lt_bits (by omega) hr
  · intro text h
    obtain ⟨hb, -, rfl⟩ := stringify_eq_ok_iff.1 h
    exact numerify_toChars (by omega) (by omega) hr

theorem stringify_round_trip_eight :
    numerify ⟨.w1, true⟩ (lit "-111111") 0 2 = (true, -63) :=
  ((stringify_round_trip (t := ⟨.w1, true⟩) (v := -63) (by decide)).2
    (lit "-111111") (by decide)).1

/-- `stringify` without a base has no room for a full width of digits, unless a sign leaves it. -/
theorem stringify10_round_trip {itoa : ℤ → Bytes}
    (hitoa : ∀ v, t.InRange v → itoa v = toChars v 10) (hr : t.InRange v) :
    ((∃ text, stringify10 itoa t v = .ok text) ↔
      t.signed ∧ 0 ≤ v ∨ v.natAbs < 10 ^ (t.width.digits10 - 1)) ∧
      ∀ text, stringify10 itoa t v = .ok text →
        numerify t text old 10 = (true, v) ∧
          ∀ s, numerify t s old 10 = (true, v) → text.length ≤ s.length := by
  simp only [stringify10, hitoa v hr, setEnd, ← length_toChars_lt_maxBytes hr]
  split_ifs with hlt
  · constructor
    · simp [hlt]
    · intro text h
      obtain rfl : toChars v 10 = text := by simpa using h
      exact numerify_toChars (by omega) (by omega) hr
  · simp [hlt]

theorem stringify10_round_trip_port :
    numerify ⟨.w2, false⟩ (lit "8080") 0 10 = (true, 8080) :=
  ((stringify10_round_trip (t := ⟨.w2, false⟩) (v := 8080)
    (fun _ _ => Eq.refl _) (by decide)).2 (lit "8080") (by decide)).1

-- The ports from 10000 on do not fit.
example : stringify10 (toChars · 10) ⟨.w2, false⟩ 10000 = .error .setEnd := by decide

/-- `numerify` accepts the texts that denote a value of the type, and no others. A text that it
refuses leaves in the variable the value of the numeral that the text begins with, up to its last
digit, if the type has that value, and else what the variable held. -/
theorem numerify_spec :
    (numerify t s old base = (true, v) ↔ Denotes t base s v ∧ t.InRange v) ∧
      (toNum t s base = some v ↔ Denotes t base s v ∧ t.InRange v) ∧
      (numerify t s old base = (false, v) ↔
        (∃ p e, e ≠ [] ∧ s = p ++ e ∧ EndsDigits base e ∧ Denotes t base p v ∧ t.InRange v) ∨
          v = old ∧
            ∀ p e w, s = p ++ e → EndsDigits base e → Denotes t base p w → ¬t.InRange w) :=
  ⟨numerify_eq_true_iff, toNum_eq_some_iff, numerify_eq_false_iff⟩

-- The numeral 999 is out of range, although its prefix 99 is not.
example : numerify ⟨.w1, false⟩ (lit "999") 7 10 = (false, 7) := by decide

end Jkl.Util
