import Mathlib.Logic.Relation
import Mathlib.Tactic.Common

/-! Loops over an explicit state. A loop body either goes on from a new state or leaves
with a result. `run` bounds the number of turns; `Ends` is the loop without the bound. -/
namespace Loop

variable {σ τ ρ ρ' : Type*}

/-- One turn of a loop body. -/
inductive Turn (σ ρ : Type*) where
  | next (s : σ)
  | done (r : ρ)

/-- At most `n` turns from `s`; `none` when they do not suffice. -/
def run (step : σ → Turn σ ρ) : ℕ → σ → Option ρ
  | 0, _ => none
  | n + 1, s =>
    match step s with
    | .next s' => run step n s'
    | .done r => some r

/-- The loop entered at `s` leaves with `r`. -/
inductive Ends (step : σ → Turn σ ρ) : σ → ρ → Prop where
  | done {s : σ} {r : ρ} (h : step s = .done r) : Ends step s r
  | next {s s' : σ} {r : ρ} (h : step s = .next s') (ht : Ends step s' r) : Ends step s r

/-- The states the loop passes through from `s`. -/
abbrev Reaches (step : σ → Turn σ ρ) : σ → σ → Prop :=
  Relation.ReflTransGen (fun s s' => step s = .next s')

variable {step : σ → Turn σ ρ} {s s' : σ} {r r' : ρ}

theorem Ends.unique (h : Ends step s r) (h' : Ends step s r') : r = r' := by
  induction h with
  | done hs =>
    cases h' with
    | done hs' => exact (Turn.done.inj (hs.symm.trans hs'))
    | next hs' _ => exact absurd (hs.symm.trans hs') (by simp)
  | next hs _ ih =>
    cases h' with
    | done hs' => exact absurd (hs.symm.trans hs') (by simp)
    | next hs' ht' =>
      cases Turn.next.inj (hs.symm.trans hs')
      exact ih ht'

theorem ends_of_run {n : ℕ} (h : run step n s = some r) : Ends step s r := by
  induction n generalizing s with
  | zero => simp [run] at h
  | succ n ih =>
    unfold run at h
    split at h
    · next s' hs => exact .next hs (ih h)
    · next r' hs => exact .done (hs.trans (congrArg _ (Option.some.inj h)))

/-- A measure that every further turn decreases bounds the number of turns. -/
theorem run_isSome (μ : σ → ℕ) (hμ : ∀ s s', step s = .next s' → μ s' < μ s) {n : ℕ}
    (hn : μ s < n) : (run step n s).isSome = true := by
  induction n generalizing s with
  | zero => omega
  | succ n ih =>
    unfold run
    split
    · next s' hs => exact ih (by have := hμ s s' hs; omega)
    · rfl

/-- What every turn keeps holds when the loop leaves. -/
theorem Ends.invariant (I : σ → Prop) (Q : ρ → Prop) (h : Ends step s r) (hs : I s)
    (hnext : ∀ s s', I s → step s = .next s' → I s')
    (hdone : ∀ s r, I s → step s = .done r → Q r) : Q r := by
  induction h with
  | done hd => exact hdone _ _ hs hd
  | next hn _ ih => exact ih (hnext _ _ hs hn)

theorem ends_iff_of_next (h : step s = .next s') : Ends step s r ↔ Ends step s' r := by
  refine ⟨fun he => ?_, .next h⟩
  cases he with
  | done hd => exact absurd (h.symm.trans hd) (by simp)
  | next hn ht => cases Turn.next.inj (h.symm.trans hn); exact ht

theorem ends_iff_of_done (h : step s = .done r') : Ends step s r ↔ r' = r := by
  refine ⟨fun he => ?_, fun he => .done (h.trans (congrArg _ he))⟩
  exact (Ends.done h).unique he

/-- Two loops in step: related states take related turns, and related turns that leave give
related results. The second loop may also leave early with a result related to everything. -/
theorem run_related {step₂ : τ → Turn τ ρ'} (R : σ → τ → Prop) (Q : Option ρ → Option ρ' → Prop)
    (hnone : Q none none)
    (hstep : ∀ s t, R s t →
      (∃ s' t', step s = .next s' ∧ step₂ t = .next t' ∧ R s' t') ∨
      (∃ r r', step s = .done r ∧ step₂ t = .done r' ∧ Q (some r) (some r')) ∨
      (∃ r', step₂ t = .done r' ∧ ∀ o, Q o (some r')))
    (n : ℕ) {s : σ} {t : τ} (hR : R s t) : Q (run step n s) (run step₂ n t) := by
  induction n generalizing s t with
  | zero => exact hnone
  | succ n ih =>
    rcases hstep s t hR with ⟨s', t', h1, h2, hR'⟩ | ⟨r, r', h1, h2, hQ⟩ | ⟨r', h2, hQ⟩
    · simp only [run, h1, h2]
      exact ih hR'
    · simpa only [run, h1, h2] using hQ
    · simp only [run, h2]
      exact hQ _

end Loop
