import Mathlib.Data.List.Basic
import Mathlib.Tactic.Common

/-! Moving elements inside one buffer, one at a time from left to right. When the destination
is not to the right of the source, every element is read before it is overwritten. -/
namespace Copy

variable {α : Type*}

/-- `n` elements from position `s` on go to position `d` on. -/
def moveLeft : List α → ℕ → ℕ → ℕ → List α
  | buf, _, _, 0 => buf
  | buf, d, s, n + 1 => moveLeft (buf[s]?.elim buf (buf.set d)) (d + 1) (s + 1) n

variable {buf : List α} {d s n i : ℕ}

@[simp] theorem length_moveLeft : (moveLeft buf d s n).length = buf.length := by
  induction n generalizing buf d s with
  | zero => rfl
  | succ n ih =>
    rw [moveLeft, ih]
    cases buf[s]? <;> simp

theorem getElem?_moveLeft (hd : d ≤ s) (hs : s + n ≤ buf.length) :
    (moveLeft buf d s n)[i]? = if d ≤ i ∧ i < d + n then buf[s + (i - d)]? else buf[i]? := by
  induction n generalizing buf d s with
  | zero =>
    rw [moveLeft, if_neg]
    omega
  | succ n ih =>
    have hx : buf[s]? = some buf[s] := List.getElem?_eq_getElem (by omega)
    rw [moveLeft, hx, Option.elim, ih (by omega) (by rw [List.length_set]; omega)]
    by_cases hi : d + 1 ≤ i ∧ i < d + 1 + n
    · -- what is read next lies to the right of what has been written
      have hne : d ≠ s + 1 + (i - (d + 1)) := by omega
      rw [if_pos hi, if_pos (by omega), List.getElem?_set_ne hne,
        show s + 1 + (i - (d + 1)) = s + (i - d) by omega]
    · rw [if_neg hi]
      by_cases he : d = i
      · subst he
        rw [if_pos (by omega), List.getElem?_set_self (by omega), Nat.sub_self, Nat.add_zero, hx]
      · rw [if_neg (by omega), List.getElem?_set_ne he]

/-- What was there stays to the left, and the elements moved follow. -/
theorem take_moveLeft (hd : d ≤ s) (hs : s + n ≤ buf.length) :
    (moveLeft buf d s n).take (d + n) = buf.take d ++ (buf.drop s).take n := by
  apply List.ext_getElem?
  intro i
  have hlen : (buf.take d).length = d := by
    rw [List.length_take]
    omega
  rw [List.getElem?_take, List.getElem?_append, hlen, getElem?_moveLeft hd hs]
  by_cases hi : i < d
  · rw [if_pos (by omega), if_neg (by omega), if_pos hi, List.getElem?_take, if_pos hi]
  · rw [if_neg hi, List.getElem?_take, List.getElem?_drop]
    by_cases hn : i - d < n
    · rw [if_pos (by omega), if_pos (by omega), if_pos hn]
    · rw [if_neg (by omega), if_neg hn]

/-- Nothing to the right of the elements moved changes. -/
theorem drop_moveLeft (hd : d ≤ s) (hs : s + n ≤ buf.length) (hk : d + n ≤ i) :
    (moveLeft buf d s n).drop i = buf.drop i := by
  apply List.ext_getElem?
  intro j
  rw [List.getElem?_drop, List.getElem?_drop, getElem?_moveLeft hd hs, if_neg (by omega)]

end Copy
