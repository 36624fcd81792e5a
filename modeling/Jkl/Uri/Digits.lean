import Jkl.Uri.Comp
import Mathlib.Data.Nat.Digits.Lemmas

/-! The decimal digits of a number. -/
namespace Jkl.Uri

variable {n : ℕ}

theorem digit_spec : ∀ d < 10, ((0x30 + UInt8.ofNat d : Byte) - 0x30).toNat = d ∧
    isDigit (0x30 + UInt8.ofNat d) = true := by
  decide

theorem digits_of_ne_zero (h : n ≠ 0) :
    digits n = ((Nat.digits 10 n).map fun d => 0x30 + UInt8.ofNat d).reverse := if_neg h

theorem isDigit_of_mem_digits {c : Byte} (hc : c ∈ digits n) : isDigit c = true := by
  unfold digits at hc
  split_ifs at hc with h
  · rw [List.mem_singleton.1 hc]
    decide
  · obtain ⟨d, hd, rfl⟩ := List.mem_map.1 (List.mem_reverse.1 hc)
    exact (digit_spec d (Nat.digits_lt_base (by decide) hd)).2

theorem digits_ne_nil : digits n ≠ [] := by
  unfold digits
  split_ifs with h
  · exact List.cons_ne_nil _ _
  · intro e
    exact h (Nat.digits_eq_nil_iff_eq_zero.1 (by simpa using e))

theorem digitsVal_digits : digitsVal (digits n) = n := by
  have hfold : ∀ l : List ℕ, (∀ d ∈ l, d < 10) →
      ((l.map fun d => 0x30 + UInt8.ofNat d).foldr
        (fun (c : Byte) n => n * 10 + (c - 0x30).toNat) 0) = Nat.ofDigits 10 l := by
    intro l hl
    induction l with
    | nil => rfl
    | cons d l ih =>
      rw [List.forall_mem_cons] at hl
      rw [List.map_cons, List.foldr_cons, ih hl.2, (digit_spec d hl.1).1, Nat.ofDigits_cons]
      exact (Nat.add_comm _ _).trans (by rw [Nat.mul_comm])
  by_cases h : n = 0
  · rw [h]
    decide
  · rw [digits_of_ne_zero h, digitsVal, List.foldl_reverse,
      hfold _ fun d hd => Nat.digits_lt_base (by decide) hd, Nat.ofDigits_digits]

/-- Only zero begins with a `'0'`. -/
theorem digits_head (h : (digits n).head? = some ('0' : Byte)) : digits n = [('0' : Byte)] := by
  by_cases hn : n = 0
  · rw [hn]
    rfl
  · rw [digits_of_ne_zero hn, List.head?_reverse, List.getLast?_map] at h
    have hne : Nat.digits 10 n ≠ [] := Nat.digits_ne_nil_iff_ne_zero.2 hn
    rw [List.getLast?_eq_some_getLast hne, Option.map_some] at h
    have hlt := Nat.digits_lt_base (b := 10) (by decide) (List.getLast_mem hne)
    have hval := (digit_spec _ hlt).1
    rw [Option.some.inj h] at hval
    exact absurd hval.symm (Nat.getLast_digit_ne_zero 10 hn)

end Jkl.Uri
