import Mathlib.Data.List.Lex
import Mathlib.Tactic.Common

/-! Addresses of the nodes of an ordered tree: the indices of the children on the way down.
`Before` is document order between nodes none of which is inside the other one. -/
namespace Address

/-- The ways down part at a node, and the first one goes to an earlier child. -/
def Before (p q : List ℕ) : Prop :=
  ∃ u i j v w, p = u ++ i :: v ∧ q = u ++ j :: w ∧ i < j

variable {p q r s : List ℕ} {i j : ℕ}

theorem Before.append (h : Before p q) (r s : List ℕ) : Before (p ++ r) (q ++ s) := by
  obtain ⟨u, i, j, v, w, rfl, rfl, hij⟩ := h
  exact ⟨u, i, j, v ++ r, w ++ s, by simp, by simp, hij⟩

theorem Before.append_left (h : Before r s) (p : List ℕ) : Before (p ++ r) (p ++ s) := by
  obtain ⟨u, i, j, v, w, rfl, rfl, hij⟩ := h
  exact ⟨p ++ u, i, j, v, w, by simp, by simp, hij⟩

theorem before_of_lt (h : i < j) : Before [i] [j] := ⟨[], i, j, [], [], rfl, rfl, h⟩

theorem Before.lt (h : Before p q) : p < q := by
  obtain ⟨u, i, j, v, w, rfl, rfl, hij⟩ := h
  induction u with
  | nil => exact List.cons_lt_cons_iff.2 (.inl hij)
  | cons k u ih => exact List.cons_lt_cons_iff.2 (.inr ⟨rfl, ih⟩)

/-- Document order between nodes, the first of which is not above the second. -/
theorem before_of_lt_of_not_prefix (h : p < q) (hpre : ¬ p <+: q) : Before p q := by
  induction p generalizing q with
  | nil => exact absurd List.nil_prefix hpre
  | cons i p ih =>
    cases q with
    | nil => cases h
    | cons j q =>
      rcases List.cons_lt_cons_iff.1 h with hij | ⟨rfl, hpq⟩
      · exact ⟨[], i, j, p, q, rfl, rfl, hij⟩
      · have hpq' : Before p q := ih hpq fun hp => hpre ((List.prefix_cons_inj i).2 hp)
        exact hpq'.append_left [i]

/-- What is in order below each of some nodes, which are in order and not inside each other, is
in order. -/
theorem pairwise_flatMap {ps : List (List ℕ)} {f : List ℕ → List (List ℕ)}
    (hps : ps.Pairwise Before) (hf : ∀ p ∈ ps, (f p).Pairwise Before) :
    (ps.flatMap fun p => (f p).map (p ++ ·)).Pairwise Before := by
  induction ps with
  | nil => exact List.Pairwise.nil
  | cons p ps ih =>
    obtain ⟨hp, hps⟩ := List.pairwise_cons.1 hps
    rw [List.flatMap_cons, List.pairwise_append]
    refine ⟨?_, ih hps fun q hq => hf q (List.mem_cons_of_mem p hq), ?_⟩
    · rw [List.pairwise_map]
      exact (hf p List.mem_cons_self).imp fun h => h.append_left p
    · intro a ha b hb
      obtain ⟨r, -, rfl⟩ := List.mem_map.1 ha
      obtain ⟨q, hq, hb⟩ := List.mem_flatMap.1 hb
      obtain ⟨s, -, rfl⟩ := List.mem_map.1 hb
      exact (hp q hq).append r s

end Address
