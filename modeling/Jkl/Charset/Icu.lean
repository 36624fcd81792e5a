import Mathlib.Data.Int.Order.Basic
import Mathlib.Data.List.Basic
import Mathlib.Tactic.Common
import Mathlib.Tactic.NormNum

/-! The conversions of `icu_charset` to and from UTF-16, with and without the first resize. ICU is a
parameter. -/
namespace Jkl.Charset

variable {σ τ : Type} {asserts skip : Bool} {fill : τ} {s : List σ} {d t : List τ} {n m : ℤ} {c : ℤ}

/-! ICU. -/

/-- A cast to `int32_t`. -/
def toInt32 (n : ℤ) : ℤ := n.bmod (2 ^ 32)

/-- `U_ILLEGAL_ARGUMENT_ERROR`. -/
def illegalArgumentError : ℤ := 1

/-- `U_BUFFER_OVERFLOW_ERROR`. -/
def bufferOverflowError : ℤ := 15

/-- What a call leaves: the length it returns, its error variable and the buffer. -/
structure Call (τ : Type) where
  n : ℤ
  e : ℤ
  dest : List τ

/-- `ucnv_fromUChars` or `ucnv_toUChars` of a converter on an input, a buffer, the capacity it is
told, and what its error variable holds. -/
abbrev Ucnv (σ τ : Type) := List σ → List τ → ℤ → ℤ → Call τ

/-- What ICU documents of a call, where `outcome` is the whole output for an input, or the error
that stops its conversion. Errors are positive. -/
structure Documented (ucnv : Ucnv σ τ) (outcome : List σ → Except ℤ (List τ)) : Prop where
  failed : ∀ s d cap e, 0 < e → (ucnv s d cap e).e = e
  illegal : ∀ s d cap e, e ≤ 0 → cap < 0 → (ucnv s d cap e).e = illegalArgumentError
  error : ∀ s d cap e c, e ≤ 0 → 0 ≤ cap → outcome s = .error c →
    0 < c ∧ (ucnv s d cap e).e = c
  overflow : ∀ s d (cap : ℤ) e t, e ≤ 0 → 0 ≤ cap → outcome s = .ok t → cap < t.length →
    (ucnv s d cap e).n = t.length ∧ (ucnv s d cap e).e = bufferOverflowError
  fits : ∀ s d (cap : ℤ) e t, e ≤ 0 → outcome s = .ok t → t.length ≤ cap →
    (ucnv s d cap e).n = t.length ∧ (ucnv s d cap e).e ≤ 0 ∧
      (ucnv s d cap e).dest.take t.length = t

/-! The conversions. -/

/-- What a conversion comes to. Resizing to a negative size throws `std::length_error`. -/
inductive Result (τ : Type) where
  | ok (d : List τ)
  | error (e : ℤ)
  | lengthError
  | assertion
deriving DecidableEq

/-- `resize_buf`; `fill` is what a buffer holds where it has grown. -/
def resizeBuf (fill : τ) (d : List τ) (n : ℤ) : List τ :=
  d.take n.toNat ++ List.replicate (n.toNat - d.length) fill

/-- What follows the calls. -/
def finish (asserts : Bool) (fill : τ) (dn : ℤ) (r : Call τ) : Result τ :=
  if 0 < r.e then .error r.e
  else if asserts ∧ dn < r.n then .assertion
  else .ok (resizeBuf fill r.dest r.n)

/-- The text of `from_u16<SkipMaxResize>` and of `to_u16<SkipMaxResize>`. The two calls share the
error variable. -/
def convert (skipMaxResize asserts : Bool) (fill : τ) (maxSize : ℤ) (ucnv : Ucnv σ τ) (s : List σ)
    (d : List τ) : Result τ :=
  if skipMaxResize then
    let dn := toInt32 d.length
    let r := ucnv s d dn 0
    if dn < r.n then finish asserts fill r.n (ucnv s (resizeBuf fill r.dest r.n) r.n r.e)
    else finish asserts fill dn r
  else if maxSize < 0 then .lengthError
  else
    let d := resizeBuf fill d maxSize
    finish asserts fill (toInt32 d.length) (ucnv s d (toInt32 d.length) 0)

/-- `UCNV_GET_MAX_BYTES_FOR_STRING` of a text of the size. -/
def maxFromU16ResultSize (maxCharSize : ℤ) (n : ℕ) : ℤ := toInt32 ((toInt32 n + 10) * maxCharSize)

def maxToU16ResultSize (n : ℕ) : ℤ := toInt32 (2 * n)

def fromU16 (skipMaxResize asserts : Bool) (fill : UInt8) (maxCharSize : ℤ)
    (fromUChars : Ucnv UInt16 UInt8) (s : List UInt16) (d : List UInt8) : Result UInt8 :=
  convert skipMaxResize asserts fill (maxFromU16ResultSize maxCharSize s.length) fromUChars s d

def toU16 (skipMaxResize asserts : Bool) (fill : UInt16) (toUChars : Ucnv UInt8 UInt16)
    (s : List UInt8) (d : List UInt16) : Result UInt16 :=
  convert skipMaxResize asserts fill (maxToU16ResultSize s.length) toUChars s d

/-! What each variant returns. -/

theorem toInt32_lt : toInt32 n < 2 ^ 31 := by
  have := @Int.bmod_lt n (2 ^ 32) (by decide)
  simpa [toInt32] using this

theorem toInt32_of_lt (h : 0 ≤ n) (h' : n < 2 ^ 31) : toInt32 n = n := by
  rw [toInt32, Int.bmod_def]
  norm_num
  omega

theorem length_resizeBuf (h : 0 ≤ n) : ((resizeBuf fill d n).length : ℤ) = n := by
  rw [resizeBuf, List.length_append, List.length_take, List.length_replicate]
  omega

theorem resizeBuf_of_take (h : d.take t.length = t) : resizeBuf fill d t.length = t := by
  have hlen := congrArg List.length h
  rw [List.length_take] at hlen
  rw [resizeBuf, Int.toNat_natCast, h, Nat.sub_eq_zero_of_le (by omega), List.replicate_zero,
    List.append_nil]

/-- What one call that is told a capacity comes to. -/
def told (cap : ℤ) (outcome : Except ℤ (List τ)) : Result τ :=
  if cap < 0 then .error illegalArgumentError
  else
    match outcome with
    | .error c => .error c
    | .ok t => if t.length ≤ cap then .ok t else .error bufferOverflowError

variable {ucnv : Ucnv σ τ} {outcome : List σ → Except ℤ (List τ)}

theorem finish_error {r : Call τ} (h : 0 < r.e) : finish asserts fill n r = .error r.e := by
  rw [finish, if_pos h]

theorem finish_call (doc : Documented ucnv outcome) :
    finish asserts fill n (ucnv s d n 0) = told n (outcome s) := by
  by_cases hn : n < 0
  · have he := doc.illegal s d n 0 le_rfl hn
    rw [finish_error (by rw [he]; decide), he]
    unfold told
    rw [if_pos hn]
  · unfold told
    rw [if_neg hn]
    cases ho : outcome s with
    | error c =>
      obtain ⟨hc, he⟩ := doc.error s d n 0 c le_rfl (by omega) ho
      rw [finish_error (by rw [he]; exact hc), he]
    | ok t =>
      by_cases hfit : t.length ≤ n
      · obtain ⟨hlen, he, hdest⟩ := doc.fits s d n 0 t le_rfl ho hfit
        have hroom : ¬(asserts = true ∧ n < (t.length : ℤ)) := by omega
        simp only [finish, if_neg (not_lt.2 he), hlen, hroom, if_false, hfit, if_true,
          resizeBuf_of_take hdest]
      · obtain ⟨-, he⟩ := doc.overflow s d n 0 t le_rfl (by omega) ho (by omega)
        rw [finish_error (by rw [he]; decide), he]
        simp only [hfit, if_false]

theorem convert_max (doc : Documented ucnv outcome) (hm : m < 2 ^ 31) :
    convert false asserts fill m ucnv s d =
      if m < 0 then .lengthError else told m (outcome s) := by
  unfold convert
  rw [if_neg (by simp)]
  split_ifs with h
  · rfl
  · have hlen : toInt32 ((resizeBuf fill d m).length : ℤ) = m := by
      rw [length_resizeBuf (by omega), toInt32_of_lt (by omega) hm]
    simp only [hlen, finish_call doc]

/-- A call that asks for more room than it was told of has failed. -/
theorem error_of_length (doc : Documented ucnv outcome) (h : n < (ucnv s d n 0).n) :
    0 < (ucnv s d n 0).e := by
  by_cases hn : n < 0
  · rw [doc.illegal s d n 0 le_rfl hn]
    decide
  · cases ho : outcome s with
    | error c =>
      obtain ⟨hc, he⟩ := doc.error s d n 0 c le_rfl (by omega) ho
      rwa [he]
    | ok t =>
      by_cases hfit : t.length ≤ n
      · have hlen := (doc.fits s d n 0 t le_rfl ho hfit).1
        omega
      · rw [(doc.overflow s d n 0 t le_rfl (by omega) ho (by omega)).2]
        decide

/-- The second call is passed the error of the first, so it does nothing. -/
theorem convert_skip (doc : Documented ucnv outcome) :
    convert true asserts fill m ucnv s d = told (toInt32 d.length) (outcome s) := by
  unfold convert
  rw [if_pos rfl]
  dsimp only
  rw [← @finish_call _ _ asserts fill s d (toInt32 d.length) _ _ doc]
  generalize hr : ucnv s d (toInt32 d.length) 0 = r
  split_ifs with h
  · have hpos : 0 < r.e := by
      rw [← hr] at h ⊢
      exact error_of_length doc h
    have he : ∀ d', (ucnv s d' r.n r.e).e = r.e := fun d' => doc.failed s d' r.n r.e hpos
    rw [finish_error (by rw [he]; exact hpos), finish_error hpos, he]
  · rfl

/-- The initial size of the buffer is one ICU takes, and the maximal size one a buffer can have; and
where the input converts, its output fits either both or neither. -/
def SizesAgree (maxSize : ℤ) (dn : ℤ) (outcome : Except ℤ (List τ)) : Prop :=
  0 ≤ maxSize ∧
    match outcome with
    | .error c => 0 ≤ dn ∨ c = illegalArgumentError
    | .ok t => 0 ≤ dn ∧ (t.length ≤ dn ↔ t.length ≤ maxSize)

theorem convert_agree_iff (doc : Documented ucnv outcome) (hm : m < 2 ^ 31) :
    convert true asserts fill m ucnv s d = convert false asserts fill m ucnv s d ↔
      SizesAgree m (toInt32 d.length) (outcome s) := by
  rw [convert_skip doc, convert_max doc hm]
  generalize toInt32 d.length = dn
  unfold told SizesAgree
  by_cases hneg : m < 0
  · rw [if_pos hneg]
    refine iff_of_false ?_ (fun h => by omega)
    split_ifs
    · simp
    · cases outcome s with
      | error c => simp
      | ok t =>
        dsimp only
        split_ifs <;> simp
  · have hm' : 0 ≤ m := by omega
    rw [if_neg hneg, if_neg hneg]
    cases outcome s with
    | error c =>
      by_cases hdn : dn < 0
      · have : ¬0 ≤ dn := by omega
        simp [hdn, hm', this, eq_comm]
      · have : 0 ≤ dn := by omega
        simp [hdn, hm', this]
    | ok t =>
      by_cases hdn : dn < 0
      · have : ¬0 ≤ dn := by omega
        simp only [hdn, if_true, hm', this, false_and, and_false, iff_false]
        split_ifs
        · simp
        · simp [illegalArgumentError, bufferOverflowError]
      · have : 0 ≤ dn := by omega
        simp only [hdn, if_false, hm', this, true_and]
        by_cases h₁ : t.length ≤ dn <;> by_cases h₂ : t.length ≤ m <;> simp [h₁, h₂]

/-- Skipping the first resize makes no difference exactly where no second call is needed: the error
of the first is never cleared. -/
theorem skip_agrees_iff (asserts : Bool) (maxCharSize : ℤ) (fromUChars : Ucnv UInt16 UInt8)
    (toUChars : Ucnv UInt8 UInt16) (bytes : List UInt16 → Except ℤ (List UInt8))
    (u16 : List UInt8 → Except ℤ (List UInt16)) (hfrom : Documented fromUChars bytes)
    (hto : Documented toUChars u16) (b : UInt8) (w : UInt16) (s : List UInt16) (d : List UInt8) :
    (fromU16 true asserts b maxCharSize fromUChars s d =
        fromU16 false asserts b maxCharSize fromUChars s d ↔
      SizesAgree (maxFromU16ResultSize maxCharSize s.length) (toInt32 d.length) (bytes s)) ∧
    (toU16 true asserts w toUChars d s = toU16 false asserts w toUChars d s ↔
      SizesAgree (maxToU16ResultSize d.length) (toInt32 s.length) (u16 d)) :=
  ⟨convert_agree_iff hfrom toInt32_lt, convert_agree_iff hto toInt32_lt⟩

/-- A converter that turns each unit into one unit, as one for Latin-1 does. -/
def unitwise (f : σ → τ) : Ucnv σ τ := fun s d cap e =>
  if 0 < e then ⟨0, e, d⟩
  else if cap < 0 then ⟨0, illegalArgumentError, d⟩
  else if s.length ≤ cap then ⟨s.length, 0, s.map f ++ d.drop s.length⟩
  else ⟨s.length, bufferOverflowError, d⟩

theorem documented_unitwise (f : σ → τ) : Documented (unitwise f) fun s => .ok (s.map f) := by
  refine ⟨?_, ?_, ?_, ?_, ?_⟩
  · intro s d cap e he
    rw [unitwise, if_pos he]
  · intro s d cap e he hcap
    rw [unitwise, if_neg (by omega), if_pos hcap]
  · rintro s d cap e c - - ⟨⟩
  · rintro s d cap e t he hcap ⟨⟩ hlt
    rw [List.length_map] at hlt ⊢
    rw [unitwise, if_neg (by omega), if_neg (by omega), if_neg (by omega)]
    exact ⟨rfl, rfl⟩
  · rintro s d cap e t he ⟨⟩ hle
    rw [List.length_map] at hle ⊢
    rw [unitwise, if_neg (by omega), if_neg (by omega), if_pos hle]
    refine ⟨rfl, le_rfl, ?_⟩
    have := @List.take_left _ (s.map f) (d.drop s.length)
    rwa [List.length_map] at this

theorem skip_agrees_hi :
    fromU16 true true 0 1 (unitwise UInt16.toUInt8) [0x68, 0x69] [0, 0, 0] =
      fromU16 false true 0 1 (unitwise UInt16.toUInt8) [0x68, 0x69] [0, 0, 0] := by
  refine ((skip_agrees_iff true 1 (unitwise UInt16.toUInt8) (unitwise UInt8.toUInt16) _ _
    (documented_unitwise _) (documented_unitwise _) 0 0 [0x68, 0x69] [0, 0, 0]).1).2 ?_
  exact ⟨by decide, by decide, by decide⟩

/-- An empty buffer needs the second call. -/
theorem skip_fails_from_empty :
    fromU16 true true 0 1 (unitwise UInt16.toUInt8) [0x68, 0x69] [] =
        .error bufferOverflowError ∧
      fromU16 true true 0 1 (unitwise UInt16.toUInt8) [0x68, 0x69] [] ≠
        fromU16 false true 0 1 (unitwise UInt16.toUInt8) [0x68, 0x69] [] := by
  decide +kernel

end Jkl.Charset
