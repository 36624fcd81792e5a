import Mathlib.Tactic.Ring
import Mathlib.Tactic.Linarith
import Mathlib.Data.Nat.Log

/-! Base-128 numerals, least significant group first. Every byte but the last has its
high bit set, so a numeral shows its own end. -/
namespace Base128

/-- One whole numeral and nothing after it. -/
def Complete : List UInt8 → Prop
  | [] => False
  | b :: bs => if b.toNat < 128 then bs = [] else Complete bs

instance : DecidablePred Complete := fun bs => by
  induction bs with
  | nil => exact inferInstanceAs (Decidable False)
  | cons b bs ih => unfold Complete; infer_instance

def value : List UInt8 → ℕ
  | [] => 0
  | b :: bs => b.toNat % 128 + 128 * value bs

def encode (n : ℕ) : List UInt8 :=
  if n < 128 then [UInt8.ofNat n] else UInt8.ofNat (n % 128 + 128) :: encode (n / 128)
termination_by n
decreasing_by omega

theorem encode_of_lt {n : ℕ} (h : n < 128) : encode n = [UInt8.ofNat n] := by
  rw [encode, if_pos h]

theorem encode_of_le {n : ℕ} (h : 128 ≤ n) :
    encode n = UInt8.ofNat (n % 128 + 128) :: encode (n / 128) := by
  rw [encode, if_neg (by omega)]

theorem complete_encode (n : ℕ) : Complete (encode n) := by
  induction n using encode.induct with
  | case1 n h => simp [encode_of_lt h, Complete, Nat.mod_eq_of_lt (by omega : n < 256), h]
  | case2 n h ih =>
    rw [encode_of_le (by omega), Complete, if_neg (by simp; omega)]
    exact ih

theorem value_encode (n : ℕ) : value (encode n) = n := by
  induction n using encode.induct with
  | case1 n h => simp [encode_of_lt h, value, Nat.mod_eq_of_lt (by omega : n < 256), h]
  | case2 n h ih =>
    have hb : (UInt8.ofNat (n % 128 + 128)).toNat = n % 128 + 128 := by
      rw [UInt8.toNat_ofNat']; omega
    rw [encode_of_le (by omega), value, ih, hb]
    omega

theorem Complete.ne_nil {bs : List UInt8} (h : Complete bs) : bs ≠ [] := by
  rintro rfl
  exact h

theorem Complete.length_pos {bs : List UInt8} (h : Complete bs) : 0 < bs.length :=
  List.length_pos_iff.mpr h.ne_nil

theorem length_encode_pos (n : ℕ) : 0 < (encode n).length := (complete_encode n).length_pos

theorem Complete.cons_inv {p rest mem : List UInt8} {b : UInt8} (hp : Complete p)
    (h : b :: mem = p ++ rest) : ∃ q, p = b :: q ∧ mem = q ++ rest := by
  cases p with
  | nil => exact hp.elim
  | cons c q =>
    obtain ⟨rfl, rfl⟩ : b = c ∧ mem = q ++ rest := by simpa using h
    exact ⟨q, rfl, rfl⟩

theorem Complete.not_nil_append {p rest : List UInt8} (hp : Complete p) : [] ≠ p ++ rest := by
  intro h
  exact hp.ne_nil (List.nil_eq_append_iff.mp h).1

/-- Numerals are prefix-free: a byte string starts with at most one of them. -/
theorem Complete.append_inj {p q x y : List UInt8} (hp : Complete p) (hq : Complete q)
    (h : p ++ x = q ++ y) : p = q ∧ x = y := by
  induction p generalizing q with
  | nil => exact hp.elim
  | cons b p ih =>
    cases q with
    | nil => exact hq.elim
    | cons c q =>
      obtain ⟨rfl, ht⟩ : b = c ∧ p ++ x = q ++ y := by simpa using h
      by_cases hb : b.toNat < 128
      · simp only [Complete, hb, if_true] at hp hq
        subst hp hq
        exact ⟨rfl, by simpa using ht⟩
      · simp only [Complete, hb, if_false] at hp hq
        obtain ⟨rfl, rfl⟩ := ih hp hq ht
        exact ⟨rfl, rfl⟩

theorem value_lt (bs : List UInt8) : value bs < 128 ^ bs.length := by
  induction bs with
  | nil => simp [value]
  | cons b bs ih =>
    have hb := Nat.mod_lt b.toNat (by omega : 0 < 128)
    simp only [value, List.length_cons, pow_succ]
    omega

theorem length_encode_le {n k : ℕ} (hk : 0 < k) (h : n < 128 ^ k) : (encode n).length ≤ k := by
  induction n using encode.induct generalizing k with
  | case1 n hn => simp [encode_of_lt hn]; omega
  | case2 n hn ih =>
    rw [encode_of_le (by omega), List.length_cons]
    obtain ⟨k, rfl⟩ : ∃ j, k = j + 1 := ⟨k - 1, by omega⟩
    have hk0 : 0 < k := by
      rcases Nat.eq_zero_or_pos k with rfl | hk
      · simp at h; omega
      · exact hk
    have := ih hk0 (by rw [pow_succ] at h; omega)
    omega

theorem lt_length_encode {n k : ℕ} (h : 128 ^ k ≤ n) : k < (encode n).length := by
  by_contra hk
  have hv := value_lt (encode n)
  rw [value_encode] at hv
  have := Nat.pow_le_pow_right (by omega : 0 < 128) (Nat.le_of_not_lt hk)
  omega

theorem length_encode_le_iff {n k : ℕ} (hk : 0 < k) : (encode n).length ≤ k ↔ n < 128 ^ k := by
  constructor
  · intro h
    by_contra hn
    have := lt_length_encode (Nat.le_of_not_lt hn)
    omega
  · exact length_encode_le hk

/-- A numeral has `k + 1` groups exactly when its value lies between `128 ^ k` and `128 ^ (k + 1)`. -/
theorem length_encode_eq_iff {n k : ℕ} :
    (encode n).length = k + 1 ↔ (k = 0 ∨ 128 ^ k ≤ n) ∧ n < 128 ^ (k + 1) := by
  constructor
  · intro h
    refine ⟨?_, ?_⟩
    · by_contra hc
      have := length_encode_le (n := n) (k := k) (by omega) (by omega)
      omega
    · by_contra hc
      have := lt_length_encode (n := n) (k := k + 1) (by omega)
      omega
  · rintro ⟨hlo, hhi⟩
    have hle := length_encode_le (Nat.succ_pos k) hhi
    rcases hlo with rfl | hlo
    · have := length_encode_pos n
      omega
    · have := lt_length_encode hlo
      omega

/-- The number of groups is the number of significant bits, counted in sevens and rounded up. -/
theorem length_encode_eq_log2 (n : ℕ) : (encode n).length = n.log2 / 7 + 1 := by
  rw [length_encode_eq_iff]
  have h128 : ∀ j : ℕ, 128 ^ j = 2 ^ (7 * j) := fun j => by
    rw [pow_mul]; rfl
  rw [h128, h128]
  rcases Nat.eq_zero_or_pos n with rfl | hn
  · simp [Nat.log2_zero]
  · refine ⟨Or.inr ?_, ?_⟩
    · exact (Nat.le_log2 hn.ne').mp (by omega)
    · exact (Nat.log2_lt hn.ne').mp (by omega)

end Base128
