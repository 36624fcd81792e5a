import Jkl.Lib.Run
import Mathlib.Data.List.Basic

/-! Programs that call one another. `Eval` is what a call does and gives, `step` a machine with a
stack of callers. -/
namespace CallStack

variable {σ ℓ ω : Type*}

/-- What a program does next: give an outcome, call another one and go on with its outcome, or
something visible. -/
inductive Act (σ ℓ ω : Type*) where
  | ret (o : ω)
  | call (b : σ) (k : ω → σ)
  | vis (next : ℓ → Option σ)

/-- The program does what is visible, one after the other, and gives the outcome. -/
inductive Eval (act : σ → Act σ ℓ ω) : σ → List ℓ → ω → Prop where
  | ret {b o} (h : act b = .ret o) : Eval act b [] o
  | call {b c k ls o ls' o'} (h : act b = .call c k) (hc : Eval act c ls o)
      (hk : Eval act (k o) ls' o') : Eval act b (ls ++ ls') o'
  | vis {b next l b' ls o} (h : act b = .vis next) (hl : next l = some b')
      (hb : Eval act b' ls o) : Eval act b (l :: ls) o

/-- A program that runs, or an outcome, and the callers, the last one first. -/
inductive Conf (σ ω : Type*) where
  | eval (b : σ) (ks : List (ω → σ))
  | back (o : ω) (ks : List (ω → σ))

def step (act : σ → Act σ ℓ ω) : Conf σ ω → Option ℓ → Option (Conf σ ω)
  | .eval b ks, l =>
    match act b, l with
    | .ret o, none => some (.back o ks)
    | .call c k, none => some (.eval c (k :: ks))
    | .vis next, some l => (next l).map fun b' => .eval b' ks
    | _, _ => none
  | .back o (k :: ks), none => some (.eval (k o) ks)
  | .back _ _, _ => none

/-- What the callers do with an outcome. -/
inductive Returns (act : σ → Act σ ℓ ω) : List (ω → σ) → ω → List ℓ → ω → Prop where
  | nil {o} : Returns act [] o [] o
  | cons {k ks o ls o₁ ls' o'} (hk : Eval act (k o) ls o₁) (hks : Returns act ks o₁ ls' o') :
      Returns act (k :: ks) o (ls ++ ls') o'

/-- What a configuration still does. -/
inductive Finishes (act : σ → Act σ ℓ ω) : Conf σ ω → List ℓ → ω → Prop where
  | eval {b ks ls o ls' o'} (hb : Eval act b ls o) (hks : Returns act ks o ls' o') :
      Finishes act (.eval b ks) (ls ++ ls') o'
  | back {ks o ls o'} (hks : Returns act ks o ls o') : Finishes act (.back o ks) ls o'

variable {act : σ → Act σ ℓ ω} {b : σ} {c d : Conf σ ω} {k : ω → σ} {ks : List (ω → σ)}
  {l : Option ℓ} {ls : List ℓ} {os : List (Option ℓ)} {o : ω}

theorem step_ret (h : act b = .ret o) : step act (.eval b ks) none = some (.back o ks) := by
  simp [step, h]

theorem step_call {b' : σ} (h : act b = .call b' k) :
    step act (.eval b ks) none = some (.eval b' (k :: ks)) := by
  simp [step, h]

theorem step_vis {next : ℓ → Option σ} {v : ℓ} {b' : σ} (h : act b = .vis next)
    (hv : next v = some b') : step act (.eval b ks) (some v) = some (.eval b' ks) := by
  simp [step, h, hv]

theorem step_back : step act (.back o (k :: ks)) none = some (.eval (k o) ks) := rfl

/-- What is still done after a step was still to do before it. -/
theorem Finishes.of_step (hstep : step act c l = some d) (h : Finishes act d ls o) :
    Finishes act c (l.toList ++ ls) o := by
  cases c with
  | eval b ks =>
    cases hb : act b with
    | ret o₁ =>
      cases l with
      | none =>
        obtain rfl : Conf.back o₁ ks = d := by simpa [step, hb] using hstep
        cases h with
        | back hks => exact .eval (.ret hb) hks
      | some v => simp [step, hb] at hstep
    | call b' k =>
      cases l with
      | none =>
        obtain rfl : Conf.eval b' (k :: ks) = d := by simpa [step, hb] using hstep
        cases h with
        | eval hb' hks =>
          cases hks with
          | cons hk hks =>
            rw [Option.toList_none, List.nil_append, ← List.append_assoc]
            exact .eval (.call hb hb' hk) hks
      | some v => simp [step, hb] at hstep
    | vis next =>
      cases l with
      | none => simp [step, hb] at hstep
      | some v =>
        simp only [step, hb, Option.map_eq_some_iff] at hstep
        obtain ⟨b', hv, rfl⟩ := hstep
        cases h with
        | eval hb' hks =>
          rw [Option.toList_some, List.singleton_append, ← List.cons_append]
          exact .eval (.vis hb hv hb') hks
  | back o₁ ks =>
    cases ks with
    | nil => simp [step] at hstep
    | cons k ks =>
      cases l with
      | none =>
        obtain rfl : Conf.eval (k o₁) ks = d := by simpa [step] using hstep
        cases h with
        | eval hk hks =>
          rw [Option.toList_none, List.nil_append]
          exact .back (.cons hk hks)
      | some v => simp [step] at hstep

theorem Finishes.of_run (hrun : Steps.run (step act) c os = some d) (h : Finishes act d ls o) :
    Finishes act c (os.reduceOption ++ ls) o := by
  induction os generalizing c with
  | nil =>
    obtain rfl := Option.some.inj hrun
    exact h
  | cons l os ih =>
    obtain ⟨c', hc', hrun⟩ := Option.bind_eq_some_iff.1 hrun
    have hstep := (ih hrun).of_step hc'
    cases l with
    | none => exact hstep
    | some v => exact hstep

/-- The machine gives what the calls do. -/
theorem eval_of_run (h : Steps.run (step act) (.eval b []) os = some (.back o [])) :
    Eval act b os.reduceOption o := by
  have hfin := Finishes.of_run h (.back .nil)
  rw [List.append_nil] at hfin
  generalize os.reduceOption = ls at hfin
  cases hfin with
  | eval hb hks =>
    cases hks with
    | nil => simpa using hb

end CallStack
