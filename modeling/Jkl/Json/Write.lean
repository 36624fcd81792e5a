import Jkl.Lib.JsonText
import Mathlib.Algebra.Group.Int.Defs
import Mathlib.Algebra.Group.Nat.Defs

/-! `write_jstr` and `write_jstr_noescape`: JSON strings at the end of a buffer. -/
namespace Jkl.Json

open JsonText (Text string isPlain shortEscape hexEscape string_quote string_plain string_short
  string_hex string_of_plain)

local instance coeChar : Coe Char UInt8 := ⟨Char.toUInt8⟩

inductive WriteFault where
  /-- `std::length_error`. -/
  | length
  /-- A byte is stored outside the buffer. -/
  | store
  | assertion
deriving DecidableEq, Repr

/-- A type of buffers: the size it allows, which is a `ptrdiff_t`, and what `resize` leaves in new
bytes. -/
structure BufType where
  maxSize : ℕ
  maxSize_lt : maxSize < 2 ^ 63
  fill : UInt8

namespace BufType

def resizeBuf (B : BufType) (b : Text) (n : ℕ) : Except WriteFault Text :=
  if n ≤ B.maxSize then .ok (b.take n ++ List.replicate (n - b.length) B.fill) else .error .length

/-- `buy_buf`. The bytes it gives begin where `b` ended; `size_t` has 64 bits. -/
def buyBuf (B : BufType) (b : Text) (n : ℕ) : Except WriteFault Text :=
  B.resizeBuf b ((b.length + n) % 2 ^ 64)

/-- `push_back` of each byte, or `append_str`. -/
def append (B : BufType) (b text : Text) : Except WriteFault Text :=
  if b.length + text.length ≤ B.maxSize then .ok (b ++ text) else .error .length

end BufType

/-- Bytes stored from the position `off` on. -/
def store (b : Text) (off : ℕ) (text : Text) : Except WriteFault Text :=
  if off + text.length ≤ b.length then .ok (b.take off ++ text ++ b.drop (off + text.length))
  else .error .store

/-! `_write_jstr`. -/

def hexDigits : Text :=
  ['0', '1', '2', '3', '4', '5', '6', '7', '8', '9', 'A', 'B', 'C', 'D', 'E', 'F']

def z16 : Text := List.replicate 16 0

def escapeTable : Text :=
  (['u', 'u', 'u', 'u', 'u', 'u', 'u', 'u', 'b', 't', 'n', 'u', 'f', 'r', 'u', 'u'] : Text) ++
  (['u', 'u', 'u', 'u', 'u', 'u', 'u', 'u', 'u', 'u', 'u', 'u', 'u', 'u', 'u', 'u'] : Text) ++
  ([0, 0, '"', 0, 0, 0, 0, 0, 0, 0, 0, 0, 0, 0, 0, 0] : Text) ++
  z16 ++ z16 ++
  ([0, 0, 0, 0, 0, 0, 0, 0, 0, 0, 0, 0, '\\', 0, 0, 0] : Text) ++
  z16 ++ z16 ++ z16 ++ z16 ++ z16 ++ z16 ++ z16 ++ z16 ++ z16 ++ z16

/-- `escape[uc]`. -/
def escape (c : UInt8) : UInt8 := escapeTable.getD c.toNat 0

def hexDigit (n : UInt8) : UInt8 := hexDigits.getD n.toNat 0

/-- A turn of the loop. -/
def writeByte (c : UInt8) : Text :=
  if escape c ≠ 0 then
    ('\\' : UInt8) :: escape c ::
      (if escape c = 'u' then ['0', '0', hexDigit (c >>> 4), hexDigit (c &&& 0xf)] else ([] : Text))
  else [c]

/-- What `_write_jstr` stores at `e`; it returns the position behind it. -/
def jstr (v : Text) : Text := ('"' : UInt8) :: (v.flatMap writeByte ++ [('"' : UInt8)])

/-- `buf_data(b) - e` as a `size_t`, for an `e` behind `n` bytes. -/
def sizeBack (n : ℕ) : ℕ := ((-n : ℤ) % 2 ^ 64).toNat

def writeJstr (B : BufType) (b v : Text) : Except WriteFault Text := do
  let b₁ ← B.buyBuf b ((2 + v.length * 6) % 2 ^ 64)
  let b₂ ← store b₁ b.length (jstr v)
  B.resizeBuf b₂ (sizeBack (b.length + (jstr v).length))

/-- What `write_jstr_noescape` stores. -/
def quoted (v : Text) : Text := ('"' : UInt8) :: (v ++ [('"' : UInt8)])

def writeJstrNoescape (B : BufType) (b v : Text) : Except WriteFault Text := do
  let b₁ ← B.buyBuf b ((2 + v.length) % 2 ^ 64)
  store b₁ b.length (quoted v)

/-! The literal. -/

/-- A JSON string literal for `v`. -/
def IsLiteral (text v : Text) : Prop := ∃ s, text = ('"' : UInt8) :: s ∧ string s = some (v, [])

variable {B : BufType} {b b' v text rest : Text} {c : UInt8}

/-- What the table says about a byte. -/
theorem escape_cases (c : UInt8) :
    escape c = 0 ∧ isPlain c = true ∨
      escape c ≠ 0 ∧ escape c ≠ 'u' ∧ shortEscape (escape c) = some c ∨
        escape c ≠ 0 ∧ escape c = 'u' ∧
          hexEscape '0' '0' (hexDigit (c >>> 4)) (hexDigit (c &&& 0xf)) = some [c] := by
  have hall : ∀ n < 256, escape (UInt8.ofNat n) = 0 ∧ isPlain (UInt8.ofNat n) = true ∨
      escape (UInt8.ofNat n) ≠ 0 ∧ escape (UInt8.ofNat n) ≠ 'u' ∧
        shortEscape (escape (UInt8.ofNat n)) = some (UInt8.ofNat n) ∨
      escape (UInt8.ofNat n) ≠ 0 ∧ escape (UInt8.ofNat n) = 'u' ∧
        hexEscape '0' '0' (hexDigit (UInt8.ofNat n >>> 4)) (hexDigit (UInt8.ofNat n &&& 0xf)) =
          some [UInt8.ofNat n] := by
    decide +kernel
  have hc := hall c.toNat c.toNat_lt
  rwa [UInt8.ofNat_toNat] at hc

theorem string_writeByte :
    string (writeByte c ++ rest) = (string rest).map fun r => (c :: r.1, r.2) := by
  unfold writeByte
  obtain ⟨hzero, hplain⟩ | ⟨hne, hu, hshort⟩ | ⟨hne, hu, hhex⟩ := escape_cases c
  · rw [if_neg (not_not.2 hzero)]
    exact string_plain hplain
  · rw [if_pos hne, if_neg hu]
    exact string_short hu hshort
  · rw [if_pos hne, if_pos hu, hu]
    exact string_hex hhex

theorem string_jstr : string (v.flatMap writeByte ++ ('"' : UInt8) :: rest) = some (v, rest) := by
  induction v with
  | nil => exact string_quote
  | cons c v ih => rw [List.flatMap_cons, List.append_assoc, string_writeByte, ih, Option.map_some]

theorem isLiteral_jstr : IsLiteral (jstr v) v := ⟨_, rfl, string_jstr⟩

theorem length_writeByte_le : (writeByte c).length ≤ 6 := by
  unfold writeByte
  split_ifs <;> simp

theorem length_jstr_le : (jstr v).length ≤ 6 * v.length + 2 := by
  have hbytes : (v.flatMap writeByte).length ≤ 6 * v.length := by
    induction v with
    | nil => simp
    | cons c v ih =>
      have := @length_writeByte_le c
      rw [List.flatMap_cons, List.length_append, List.length_cons]
      omega
  rw [jstr, List.length_cons, List.length_append, List.length_singleton]
  omega

/-! The buffer. -/

theorem resizeBuf_eq_ok {n : ℕ} (h : B.resizeBuf b n = .ok b') :
    n ≤ B.maxSize ∧ b'.length = n ∧ b' = b.take n ++ List.replicate (n - b.length) B.fill := by
  unfold BufType.resizeBuf at h
  split_ifs at h with hn
  obtain rfl := Except.ok.inj h
  refine ⟨hn, ?_, rfl⟩
  rw [List.length_append, List.length_take, List.length_replicate]
  omega

theorem store_eq_ok {off : ℕ} (h : store b off text = .ok b') :
    off + text.length ≤ b.length ∧ b' = b.take off ++ text ++ b.drop (off + text.length) := by
  unfold store at h
  split_ifs at h with hoff
  exact ⟨hoff, (Except.ok.inj h).symm⟩

theorem bind_eq_ok {α β : Type} {x : Except WriteFault α} {f : α → Except WriteFault β} {y : β} :
    (x >>= f) = .ok y ↔ ∃ a, x = .ok a ∧ f a = .ok y := by
  cases x with
  | error e => simp [bind, Except.bind]
  | ok a => simp [bind, Except.bind]

theorem lt_sizeBack {n : ℕ} (hpos : 0 < n) (hn : n ≤ 2 ^ 63) : 2 ^ 63 ≤ sizeBack n := by
  unfold sizeBack
  omega

/-- The size asked for at the end is the distance from `e` back to the data, which is more than a
buffer may have. -/
theorem writeJstr_ne_ok : writeJstr B b v ≠ .ok b' := by
  intro h
  unfold writeJstr at h
  obtain ⟨b₁, hbuy, h⟩ := bind_eq_ok.1 h
  obtain ⟨b₂, hstore, h⟩ := bind_eq_ok.1 h
  obtain ⟨hn, hlen, -⟩ := resizeBuf_eq_ok hbuy
  obtain ⟨hoff, -⟩ := store_eq_ok hstore
  obtain ⟨hsize, -⟩ := resizeBuf_eq_ok h
  have hmax := B.maxSize_lt
  rw [← hlen] at hn
  have hback : 2 ^ 63 ≤ sizeBack (b.length + (jstr v).length) := by
    apply lt_sizeBack
    · exact Nat.add_pos_right _ (Nat.succ_pos _)
    · exact Nat.le_trans (Nat.le_trans hoff hn) (Nat.le_of_lt hmax)
  omega

/-- What `write_jstr` is for. -/
def AppendsLiteral (B : BufType) (b v : Text) : Prop :=
  ∃ text, writeJstr B b v = .ok (b ++ text) ∧ IsLiteral text v ∧ text.length ≤ 6 * v.length + 2

/-- The literal that is stored is right, and the call fails all the same, for every buffer and
string. -/
theorem write_jstr_never (B : BufType) (b v : Text) :
    (IsLiteral (jstr v) v ∧ (jstr v).length ≤ 6 * v.length + 2) ∧ ¬AppendsLiteral B b v := by
  refine ⟨⟨isLiteral_jstr, length_jstr_le⟩, ?_⟩
  rintro ⟨text, h, -⟩
  exact writeJstr_ne_ok h

theorem not_appendsLiteral_a : ¬AppendsLiteral ⟨2 ^ 63 - 1, by decide, 0⟩ [] ['a'] := by
  rintro ⟨text, h, -⟩
  exact writeJstr_ne_ok h

/-! Strings that need no escape. -/

/-- A byte string without bytes that the table escapes. -/
abbrev Clean := {s : Text // ∀ c ∈ s, escape c = 0}

theorem isPlain_of_escape (h : escape c = 0) : isPlain c = true := by
  obtain ⟨-, hplain⟩ | ⟨hne, -⟩ | ⟨hne, -⟩ := escape_cases c
  · exact hplain
  · exact absurd h hne
  · exact absurd h hne

theorem string_clean (v : Clean) : string (v.1 ++ ('"' : UInt8) :: rest) = some (v.1, rest) :=
  string_of_plain fun c hc => isPlain_of_escape (v.2 c hc)

/-- A buffer grown for a text that is then stored there. -/
theorem buy_store_eq_ok :
    (B.buyBuf b (text.length % 2 ^ 64) >>= fun b₁ => store b₁ b.length text) = .ok b' ↔
      b.length + text.length ≤ B.maxSize ∧ b' = b ++ text := by
  have hmax := B.maxSize_lt
  rw [bind_eq_ok]
  constructor
  · rintro ⟨b₁, hbuy, hstore⟩
    obtain ⟨hn, hlen, rfl⟩ := resizeBuf_eq_ok hbuy
    obtain ⟨hoff, rfl⟩ := store_eq_ok hstore
    rw [hlen] at hoff
    generalize hm : (b.length + text.length % 2 ^ 64) % 2 ^ 64 = m at hn hlen hoff ⊢
    have hle : m ≤ b.length + text.length := by
      rw [← hm]
      exact Nat.le_trans (Nat.mod_le _ _) (Nat.add_le_add_left (Nat.mod_le _ _) _)
    obtain rfl : m = b.length + text.length := Nat.le_antisymm hle hoff
    have hgrown : b.take (b.length + text.length) ++
        List.replicate (b.length + text.length - b.length) B.fill =
        b ++ List.replicate text.length B.fill := by
      rw [List.take_of_length_le (Nat.le_add_right _ _), Nat.add_sub_cancel_left]
    refine ⟨hn, ?_⟩
    rw [hgrown, List.take_left, List.drop_eq_nil_of_le (by simp), List.append_nil]
  · rintro ⟨hle, rfl⟩
    have hmod : (b.length + text.length % 2 ^ 64) % 2 ^ 64 = b.length + text.length := by
      rw [Nat.add_mod_mod, Nat.mod_eq_of_lt (by omega)]
    refine ⟨b ++ List.replicate text.length B.fill, ?_, ?_⟩
    · rw [BufType.buyBuf, hmod, BufType.resizeBuf, if_pos hle,
        List.take_of_length_le (Nat.le_add_right _ _), Nat.add_sub_cancel_left]
    · rw [store, if_pos (by simp)]
      simp

theorem writeJstrNoescape_eq_ok : writeJstrNoescape B b v = .ok b' ↔
    b.length + (quoted v).length ≤ B.maxSize ∧ b' = b ++ quoted v := by
  have hlen : 2 + v.length = (quoted v).length := by
    simp only [quoted, List.length_cons, List.length_append, List.length_nil]
    omega
  rw [← buy_store_eq_ok, ← hlen]
  rfl

end Jkl.Json
