import Mathlib.Data.List.Basic
import Mathlib.Data.List.TakeWhile
import Mathlib.Tactic.Common

/-! Searching a list by position: the first position from a given one on, or the last one up to
it, at which what is left of the list meets a predicate. -/
namespace Search

variable {α : Type*} {p : List α → Bool} {q : α → Bool} {s t a b : List α} {c : α} {i j pos : ℕ}

/-- The first position from `pos` on. -/
def findFrom (p : List α → Bool) (s : List α) (pos : ℕ) : Option ℕ :=
  (List.range' pos (s.length + 1 - pos)).find? fun i => p (s.drop i)

def lastUpTo (p : List α → Bool) (s : List α) : ℕ → Option ℕ
  | 0 => if p s then some 0 else none
  | n + 1 => if p (s.drop (n + 1)) then some (n + 1) else lastUpTo p s n

/-- The last position up to `pos`. -/
def rfindFrom (p : List α → Bool) (s : List α) (pos : ℕ) : Option ℕ :=
  lastUpTo p s (min pos s.length)

/-- The list starts with an element of the kind. -/
def headIn (q : α → Bool) (s : List α) : Bool := s.head?.any q

@[simp] theorem headIn_nil : headIn q [] = false := rfl

@[simp] theorem headIn_cons : headIn q (c :: s) = q c := rfl

theorem findFrom_eq_some : findFrom p s pos = some i ↔
    pos ≤ i ∧ i ≤ s.length ∧ p (s.drop i) = true ∧
      ∀ j, pos ≤ j → j < i → p (s.drop j) = false := by
  rw [findFrom, List.find?_range'_eq_some, List.mem_range'_1]
  constructor
  · rintro ⟨hp, ⟨hle, hlt⟩, hmin⟩
    exact ⟨hle, by omega, hp, fun j hj hji => by simpa using hmin j hj hji⟩
  · rintro ⟨hle, hlen, hp, hmin⟩
    exact ⟨hp, ⟨hle, by omega⟩, fun j hj hji => by simp [hmin j hj hji]⟩

theorem findFrom_eq_none : findFrom p s pos = none ↔
    ∀ j, pos ≤ j → j ≤ s.length → p (s.drop j) = false := by
  rw [findFrom, List.find?_range'_eq_none]
  constructor
  · intro h j hj hlen
    simpa using h j hj (by omega)
  · intro h j hj hlt
    simp [h j hj (by omega)]

theorem lastUpTo_eq_some {n : ℕ} : lastUpTo p s n = some i ↔
    i ≤ n ∧ p (s.drop i) = true ∧ ∀ j, i < j → j ≤ n → p (s.drop j) = false := by
  induction n with
  | zero =>
    rw [lastUpTo]
    split_ifs with h
    · constructor
      · rintro ⟨⟩
        exact ⟨Nat.le_refl _, h, fun j hj hj' => by omega⟩
      · rintro ⟨hi, -⟩
        rw [Nat.le_zero.1 hi]
    · simp only [false_iff]
      rintro ⟨hi, hp, -⟩
      rw [Nat.le_zero.1 hi] at hp
      exact h hp
  | succ n ih =>
    rw [lastUpTo]
    split_ifs with h
    · constructor
      · rintro ⟨⟩
        exact ⟨Nat.le_refl _, h, fun j hj hj' => by omega⟩
      · rintro ⟨hi, -, hmax⟩
        by_contra hne
        have hlt : i < n + 1 := Nat.lt_of_le_of_ne hi fun e => hne (congrArg some e.symm)
        rw [hmax (n + 1) hlt (Nat.le_refl _)] at h
        cases h
    · rw [ih]
      constructor
      · rintro ⟨hi, hp, hmax⟩
        refine ⟨by omega, hp, fun j hj hj' => ?_⟩
        obtain hj' | rfl := Nat.le_succ_iff.1 hj'
        · exact hmax j hj hj'
        · simpa using h
      · rintro ⟨hi, hp, hmax⟩
        have hne : i ≠ n + 1 := by
          rintro rfl
          exact h hp
        exact ⟨by omega, hp, fun j hj hj' => hmax j hj (by omega)⟩

theorem lastUpTo_eq_none {n : ℕ} :
    lastUpTo p s n = none ↔ ∀ j ≤ n, p (s.drop j) = false := by
  induction n with
  | zero => simp [lastUpTo]
  | succ n ih =>
    rw [lastUpTo]
    split_ifs with h
    · simp only [false_iff]
      intro hall
      rw [hall (n + 1) (Nat.le_refl _)] at h
      cases h
    · rw [ih]
      constructor
      · intro hall j hj
        obtain hj | rfl := Nat.le_succ_iff.1 hj
        · exact hall j hj
        · simpa using h
      · exact fun hall j hj => hall j (by omega)

theorem rfindFrom_eq_some : rfindFrom p s pos = some i ↔
    i ≤ pos ∧ i ≤ s.length ∧ p (s.drop i) = true ∧
      ∀ j, i < j → j ≤ pos → j ≤ s.length → p (s.drop j) = false := by
  rw [rfindFrom, lastUpTo_eq_some]
  constructor
  · rintro ⟨hi, hp, hmax⟩
    exact ⟨by omega, by omega, hp, fun j hj hj' hlen => hmax j hj (by omega)⟩
  · rintro ⟨hi, hlen, hp, hmax⟩
    exact ⟨by omega, hp, fun j hj hj' => hmax j hj (by omega) (by omega)⟩

theorem rfindFrom_eq_none : rfindFrom p s pos = none ↔
    ∀ j ≤ pos, j ≤ s.length → p (s.drop j) = false := by
  rw [rfindFrom, lastUpTo_eq_none]
  constructor
  · exact fun h j hj hlen => h j (by omega)
  · exact fun h j hj => h j (by omega) (by omega)

/-! The first hit, by what the list is put together from. -/

theorem findFrom_append (ha : ∀ j, pos ≤ j → j < a.length → p ((a ++ b).drop j) = false)
    (hb : p b = true) (hpos : pos ≤ a.length) : findFrom p (a ++ b) pos = some a.length := by
  rw [findFrom_eq_some, List.drop_left]
  exact ⟨hpos, by simp, hb, ha⟩

theorem headIn_drop_of_forall (ha : ∀ c ∈ a, q c = false) (hi : t.length ≤ i)
    (hi' : i < (t ++ a).length) : headIn q ((t ++ a ++ b).drop i) = false := by
  have hlt : i < (t ++ a ++ b).length := by
    rw [List.length_append]
    omega
  rw [List.drop_eq_getElem_cons hlt, headIn_cons, List.getElem_append_left hi',
    List.getElem_append_right hi]
  exact ha _ (List.getElem_mem _)

/-- The first element of the kind in what follows `t`. -/
theorem findFrom_headIn (ha : ∀ c ∈ a, q c = false) (hc : q c = true) :
    findFrom (headIn q) (t ++ a ++ c :: b) t.length = some (t ++ a).length :=
  findFrom_append (fun _ hj hj' => headIn_drop_of_forall ha hj hj') hc (by simp)

theorem findFrom_headIn_none (ha : ∀ c ∈ a, q c = false) :
    findFrom (headIn q) (t ++ a) t.length = none := by
  rw [findFrom_eq_none]
  intro j hj hj'
  obtain hlt | rfl := Nat.lt_or_eq_of_le hj'
  · simpa using @headIn_drop_of_forall _ q t a [] j ha hj hlt
  · rw [List.drop_length, headIn_nil]

/-! The same, with the text and the position up to an equation. -/

theorem findFrom_at (hs : s = t ++ a ++ c :: b) (hi : i = t.length) (ha : ∀ x ∈ a, q x = false)
    (hc : q c = true) : findFrom (headIn q) s i = some (i + a.length) := by
  subst hs hi
  rw [← List.length_append]
  exact findFrom_headIn ha hc

theorem findFrom_end (hs : s = t ++ a) (hi : i = t.length) (ha : ∀ x ∈ a, q x = false) :
    findFrom (headIn q) s i = none := by
  subst hs hi
  exact findFrom_headIn_none ha

theorem headIn_drop (h : headIn q (s.drop i) = true) : ∃ h : i < s.length, q s[i] = true := by
  have hi : i < s.length := by
    by_contra hn
    rw [List.drop_of_length_le (by omega)] at h
    cases h
  rw [List.drop_eq_getElem_cons hi] at h
  exact ⟨hi, h⟩

theorem findFrom_succ (hpos : pos ≤ s.length) (h : p (s.drop pos) = false) :
    findFrom p s pos = findFrom p s (pos + 1) := by
  have hlen : s.length + 1 - pos = s.length + 1 - (pos + 1) + 1 := by omega
  rw [findFrom, hlen, List.range'_succ, List.find?_cons, h]
  rfl

theorem findFrom_headIn_some (h : findFrom (headIn q) s pos = some i) :
    pos ≤ i ∧ ∃ c, s[i]? = some c ∧ q c = true := by
  obtain ⟨hle, -, hp, -⟩ := findFrom_eq_some.1 h
  obtain ⟨hi, hq⟩ := headIn_drop hp
  exact ⟨hle, s[i], List.getElem?_eq_getElem hi, hq⟩

section IndexFrom

variable [DecidableEq α]

/-- The first position of the element from `pos` on. -/
def indexFrom (c : α) (s : List α) (pos : ℕ) : Option ℕ := findFrom (headIn fun x => x = c) s pos

theorem indexFrom_append (ha : c ∉ a) :
    indexFrom c (t ++ a ++ c :: b) t.length = some (t ++ a).length := by
  refine findFrom_headIn (fun x hx => decide_eq_false ?_) (decide_eq_true rfl)
  rintro rfl
  exact ha hx

theorem indexFrom_eq_none (ha : c ∉ a) : indexFrom c (t ++ a) t.length = none := by
  refine findFrom_headIn_none fun x hx => decide_eq_false ?_
  rintro rfl
  exact ha hx

theorem indexFrom_at (hs : s = t ++ a ++ c :: b) (hi : i = t.length) (ha : c ∉ a) :
    indexFrom c s i = some (i + a.length) := by
  subst hs hi
  rw [← List.length_append]
  exact indexFrom_append ha

theorem indexFrom_end (hs : s = t ++ a) (hi : i = t.length) (ha : c ∉ a) :
    indexFrom c s i = none := by
  subst hs hi
  exact indexFrom_eq_none ha

theorem indexFrom_some (h : indexFrom c s pos = some i) : pos ≤ i ∧ s[i]? = some c := by
  obtain ⟨hle, d, hi, hd⟩ := findFrom_headIn_some h
  rw [of_decide_eq_true hd] at hi
  exact ⟨hle, hi⟩

/-- What comes before the next occurrence, or before the end. -/
theorem take_indexFrom (hi : i = t.length) :
    ((t ++ a).drop i).take ((indexFrom c (t ++ a) i).getD (t ++ a).length - i) =
      a.takeWhile (· ≠ c) := by
  subst hi
  have hcut : a.takeWhile (· ≠ c) ++ a.dropWhile (· ≠ c) = a := List.takeWhile_append_dropWhile
  have hdrop := List.head?_dropWhile_not (fun x => decide (x ≠ c)) a
  have hnot : c ∉ a.takeWhile (· ≠ c) := fun hm => by
    simpa using List.mem_takeWhile_imp hm
  generalize a.takeWhile (· ≠ c) = b at hcut hnot ⊢
  rw [List.drop_left]
  cases hd : a.dropWhile (· ≠ c) with
  | nil =>
    rw [hd, List.append_nil] at hcut
    subst hcut
    rw [indexFrom_eq_none hnot, Option.getD_none, List.length_append, Nat.add_sub_cancel_left,
      List.take_length]
  | cons x w =>
    rw [hd] at hcut hdrop
    have hx : x = c := by simpa using hdrop
    subst hx hcut
    rw [← List.append_assoc, indexFrom_append hnot, Option.getD_some, List.length_append,
      Nat.add_sub_cancel_left, List.take_left]

end IndexFrom

end Search
