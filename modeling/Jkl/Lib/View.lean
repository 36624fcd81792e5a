import Jkl.Lib.Loop
import Mathlib.Data.List.Basic

/-! Reads of a text that a program may only make inside it. A read elsewhere is a fault, and so is
an assertion that fails. -/
namespace View

open Loop (Turn)

universe u

variable {α σ ρ : Type*}

inductive Fault where
  | index
  | substr
  | assertion
deriving DecidableEq, Repr

def get (s : List α) (i : ℕ) : Except Fault α :=
  match s[i]? with
  | some c => .ok c
  | none => .error .index

/-- At most `n` elements from `pos` on, all of them for `none`; it may be the end of the text. -/
def substr (s : List α) (pos : ℕ) (n : Option ℕ) : Except Fault (List α) :=
  if pos ≤ s.length then .ok ((s.drop pos).take (n.getD s.length)) else .error .substr

def assert (p : Prop) [Decidable p] : Except Fault Unit :=
  if p then .ok () else .error .assertion

/-- A turn of a loop that leaves with the fault. -/
def turn : Except Fault (Turn σ ρ) → Turn σ (Except Fault ρ)
  | .error e => .done (.error e)
  | .ok (.done r) => .done (.ok r)
  | .ok (.next s) => .next s

variable {s t a b : List α} {c : α} {i k pos : ℕ} {n : Option ℕ}

theorem ok_bind {α β : Type u} (x : α) (f : α → Except Fault β) : (Except.ok x >>= f) = f x := rfl

theorem get_of_eq (h : s[i]? = some c) : get s i = .ok c := by
  rw [get, h]

theorem get_of_lt (h : i < s.length) : get s i = .ok s[i] := by
  rw [get, List.getElem?_eq_getElem h]

theorem get_of_le (h : s.length ≤ i) : get s i = .error .index := by
  rw [get, List.getElem?_eq_none h]

theorem get_append : get (t ++ c :: b) t.length = .ok c := by
  simp [get]

theorem substr_of_le (h : pos ≤ s.length) :
    substr s pos n = .ok ((s.drop pos).take (n.getD s.length)) := if_pos h

theorem substr_append : substr (t ++ a ++ b) t.length (some a.length) = .ok a := by
  rw [List.append_assoc, substr_of_le (by simp), List.drop_left, Option.getD_some, List.take_left]

theorem substr_rest : substr (t ++ a) t.length none = .ok a := by
  rw [substr_of_le (by simp), List.drop_left, Option.getD_none, List.take_of_length_le (by simp)]

theorem assert_of_pos {p : Prop} [Decidable p] (h : p) : assert p = .ok () := if_pos h

/-! The same, with the text and the position up to an equation. -/

theorem get_at (hs : s = t ++ c :: b) (hi : i = t.length) : get s i = .ok c := by
  subst hs hi
  exact get_append

theorem substr_at (hs : s = t ++ a ++ b) (hi : i = t.length) (hk : k = a.length) :
    substr s i (some k) = .ok a := by
  subst hs hi hk
  exact substr_append

theorem substr_end (hs : s = t ++ a) (hi : i = t.length) : substr s i none = .ok a := by
  subst hs hi
  exact substr_rest

end View
