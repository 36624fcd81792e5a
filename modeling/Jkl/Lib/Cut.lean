import Mathlib.Data.List.TakeWhile
import Mathlib.Tactic.Common

/-! Lists cut at a delimiter: at its first occurrence, at its last one, or before the first
element of a kind. Each cut is determined by the list being put together again and by where
the delimiter does not occur. -/
namespace Cut

variable {α : Type*}

section FindFirstOf

/-- What comes before the first element that meets `p`, and what starts with it. -/
def findFirstOf (p : α → Bool) (s : List α) : List α × List α :=
  (s.takeWhile fun c => !p c, s.dropWhile fun c => !p c)

variable {p : α → Bool} {s a b : List α}

theorem findFirstOf_append : (findFirstOf p s).1 ++ (findFirstOf p s).2 = s :=
  List.takeWhile_append_dropWhile

theorem not_stop_of_mem {c : α} (h : c ∈ (findFirstOf p s).1) : p c = false := by
  have := List.mem_takeWhile_imp h
  simpa using this

theorem stop_of_head {c : α} (h : (findFirstOf p s).2.head? = some c) : p c = true := by
  have := List.head?_dropWhile_not (fun c => !p c) s
  simp only [findFirstOf] at h
  simpa [h] using this

theorem findFirstOf_eq (ha : ∀ c ∈ a, p c = false) (hb : ∀ c, b.head? = some c → p c = true) :
    findFirstOf p (a ++ b) = (a, b) := by
  induction a with
  | nil =>
    cases b with
    | nil => rfl
    | cons c b => simp [findFirstOf, hb c rfl]
  | cons c a ih =>
    have hc : p c = false := ha c List.mem_cons_self
    have hrest := ih fun d hd => ha d (List.mem_cons_of_mem c hd)
    simp only [findFirstOf, Prod.mk.injEq] at hrest
    simp [findFirstOf, hc, hrest]

theorem findFirstOf_of_none (ha : ∀ c ∈ a, p c = false) : findFirstOf p a = (a, []) := by
  simpa using findFirstOf_eq (b := []) ha (by simp)

end FindFirstOf

variable [DecidableEq α] {c : α} {s a b : List α}

/-- What comes before and after the first `c`. -/
def find (c : α) : List α → Option (List α × List α)
  | [] => none
  | x :: s => if x = c then some ([], s) else (find c s).map fun p => (x :: p.1, p.2)

/-- What comes before and after the last `c`. -/
def rfind (c : α) : List α → Option (List α × List α)
  | [] => none
  | x :: s =>
    match rfind c s with
    | some p => some (x :: p.1, p.2)
    | none => if x = c then some ([], s) else none

@[simp] theorem find_eq_none : find c s = none ↔ c ∉ s := by
  induction s with
  | nil => simp [find]
  | cons x s ih =>
    by_cases hx : x = c
    · simp [find, hx]
    · simp [find, hx, ih, Ne.symm hx]

theorem find_append (h : c ∉ a) : find c (a ++ c :: b) = some (a, b) := by
  induction a with
  | nil => simp [find]
  | cons x a ih =>
    have hx : x ≠ c := fun e => h (e ▸ List.mem_cons_self)
    have ha : c ∉ a := fun e => h (List.mem_cons_of_mem x e)
    simp [find, hx, ih ha]

theorem find_eq_some : find c s = some (a, b) ↔ s = a ++ c :: b ∧ c ∉ a := by
  refine ⟨fun h => ?_, fun h => h.1 ▸ find_append h.2⟩
  induction s generalizing a with
  | nil => simp [find] at h
  | cons x s ih =>
    by_cases hx : x = c
    · simp only [find, hx, if_true, Option.some.injEq, Prod.mk.injEq] at h
      obtain ⟨rfl, rfl⟩ := h
      simp [hx]
    · simp only [find, hx, if_false, Option.map_eq_some_iff] at h
      obtain ⟨⟨a', b'⟩, hp, he⟩ := h
      simp only [Prod.mk.injEq] at he
      obtain ⟨rfl, rfl⟩ := he
      obtain ⟨hs, hn⟩ := ih hp
      simp [hs, hn, Ne.symm hx]

@[simp] theorem rfind_eq_none : rfind c s = none ↔ c ∉ s := by
  induction s with
  | nil => simp [rfind]
  | cons x s ih =>
    cases h : rfind c s with
    | none =>
      have hs : c ∉ s := ih.1 h
      by_cases hx : x = c
      · simp [rfind, h, hx]
      · simp [rfind, h, hx, hs, Ne.symm hx]
    | some p =>
      have hs : c ∈ s := by
        by_contra hn
        exact absurd (ih.2 hn) (by simp [h])
      simp [rfind, h, hs]

theorem rfind_append (h : c ∉ b) : rfind c (a ++ c :: b) = some (a, b) := by
  induction a with
  | nil => simp [rfind, rfind_eq_none.2 h]
  | cons x a ih => simp [rfind, ih]

theorem rfind_eq_some : rfind c s = some (a, b) ↔ s = a ++ c :: b ∧ c ∉ b := by
  refine ⟨fun h => ?_, fun h => h.1 ▸ rfind_append h.2⟩
  induction s generalizing a with
  | nil => simp [rfind] at h
  | cons x s ih =>
    cases hp : rfind c s with
    | none =>
      by_cases hx : x = c
      · simp only [rfind, hp, hx, if_true, Option.some.injEq, Prod.mk.injEq] at h
        obtain ⟨rfl, rfl⟩ := h
        simp [hx, rfind_eq_none.1 hp]
      · simp [rfind, hp, hx] at h
    | some p =>
      simp only [rfind, hp, Option.some.injEq, Prod.mk.injEq] at h
      obtain ⟨rfl, rfl⟩ := h
      obtain ⟨hs, hn⟩ := ih hp
      simp [← hs, hn]

end Cut
