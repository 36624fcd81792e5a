import Mathlib.Data.Nat.Digits.Lemmas

/-! Positional numerals: the digits of a number in a base, the most significant one first, and
the value of digits. -/
namespace Numeral

/-- The digits of a number; of zero it is one. -/
def digits (b n : ℕ) : List ℕ := if n = 0 then [0] else (Nat.digits b n).reverse

def value (b : ℕ) (ds : List ℕ) : ℕ := ds.foldl (fun n d => n * b + d) 0

variable {b n k d : ℕ} {ds : List ℕ}

theorem digits_zero : digits b 0 = [0] := rfl

theorem digits_of_ne_zero (h : n ≠ 0) : digits b n = (Nat.digits b n).reverse := if_neg h

theorem digits_ne_nil : digits b n ≠ [] := by
  unfold digits
  split_ifs with h
  · exact List.cons_ne_nil _ _
  · intro e
    exact h (Nat.digits_eq_nil_iff_eq_zero.1 (by simpa using e))

theorem lt_of_mem_digits (hb : 1 < b) (hd : d ∈ digits b n) : d < b := by
  unfold digits at hd
  split_ifs at hd with h
  · rw [List.mem_singleton.1 hd]
    exact Nat.zero_lt_of_lt hb
  · exact Nat.digits_lt_base hb (List.mem_reverse.1 hd)

theorem value_eq_ofDigits : value b ds = Nat.ofDigits b ds.reverse := by
  have hfold : ∀ l : List ℕ, l.foldr (fun d n => n * b + d) 0 = Nat.ofDigits b l := by
    intro l
    induction l with
    | nil => rfl
    | cons d l ih => rw [List.foldr_cons, ih, Nat.ofDigits_cons, Nat.mul_comm, Nat.add_comm]
  rw [value, List.foldl_eq_foldr_reverse, hfold]

theorem value_digits : value b (digits b n) = n := by
  by_cases h : n = 0
  · simp [h, digits_zero, value]
  · rw [value_eq_ofDigits, digits_of_ne_zero h, List.reverse_reverse, Nat.ofDigits_digits]

theorem length_digits_le_iff (hb : 1 < b) (hk : 0 < k) :
    (digits b n).length ≤ k ↔ n < b ^ k := by
  by_cases h : n = 0
  · simp [h, digits_zero, Nat.pow_pos (Nat.zero_lt_of_lt hb)]
    omega
  · rw [digits_of_ne_zero h, List.length_reverse, Nat.digits_length_le_iff hb]

/-- Of all numerals of a number the one without leading zeros is the shortest. -/
theorem length_digits_value_le (hb : 1 < b) (hne : ds ≠ []) (hds : ∀ d ∈ ds, d < b) :
    (digits b (value b ds)).length ≤ ds.length := by
  rw [length_digits_le_iff hb (List.length_pos_iff.2 hne), value_eq_ofDigits,
    ← List.length_reverse]
  exact Nat.ofDigits_lt_base_pow_length hb fun d hd => hds d (List.mem_reverse.1 hd)

end Numeral
