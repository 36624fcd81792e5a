import Mathlib.Tactic.Common

/-! Runs of a partial step function. `run` plays a list of events, `Along` asks a
condition of every step on the way. -/
namespace Steps

variable {σ ε : Type*}

/-- The state after the events, if every one of them was possible in its turn. -/
def run (step : σ → ε → Option σ) : σ → List ε → Option σ
  | s, [] => some s
  | s, e :: es => (step s e).bind fun t => run step t es

/-- Every event of the list meets `P` in the state it happens in. -/
def Along (step : σ → ε → Option σ) (P : σ → ε → Prop) : σ → List ε → Prop
  | _, [] => True
  | s, e :: es => P s e ∧ ∀ t, step s e = some t → Along step P t es

/-- `R` holds of every step that is taken. -/
def Each (step : σ → ε → Option σ) (R : σ → ε → σ → Prop) : σ → List ε → Prop
  | _, [] => True
  | s, e :: es => ∀ t, step s e = some t → R s e t ∧ Each step R t es

variable {step : σ → ε → Option σ} {P : σ → ε → Prop} {R C : σ → ε → σ → Prop} {I : σ → Prop}
  {s t u : σ} {e : ε} {es fs : List ε}

@[simp] theorem run_nil : run step s [] = some s := rfl

theorem run_cons : run step s (e :: es) = (step s e).bind fun t => run step t es := rfl

theorem run_cons_of (h : step s e = some t) : run step s (e :: es) = run step t es := by
  simp [run_cons, h]

theorem run_append (h : run step s es = some t) :
    run step s (es ++ fs) = run step t fs := by
  induction es generalizing s with
  | nil =>
    obtain rfl := Option.some.inj h
    rfl
  | cons e es ih =>
    obtain ⟨v, hv, hrun⟩ := Option.bind_eq_some_iff.1 h
    rw [List.cons_append, run_cons_of hv]
    exact ih hrun

theorem Along.imp {Q : σ → ε → Prop} (h : ∀ s e, P s e → Q s e) (ha : Along step P s es) :
    Along step Q s es := by
  induction es generalizing s with
  | nil => trivial
  | cons e es ih => exact ⟨h s e ha.1, fun t ht => ih (ha.2 t ht)⟩

/-- What every step that meets `P` keeps, a run of such steps keeps. -/
theorem invariant_run (hstep : ∀ s e t, I s → P s e → step s e = some t → I t)
    (hs : I s) (ha : Along step P s es) (h : run step s es = some t) : I t := by
  induction es generalizing s with
  | nil =>
    have : s = t := Option.some.inj h
    exact this ▸ hs
  | cons e es ih =>
    obtain ⟨v, hv, hrun⟩ := Option.bind_eq_some_iff.1 h
    exact ih (hstep s e v hs ha.1 hv) (ha.2 v hv) hrun

theorem along_true : Along step (fun _ _ => True) s es := by
  induction es generalizing s with
  | nil => trivial
  | cons e es ih => exact ⟨trivial, fun t _ => ih⟩

/-- What every step keeps, every run keeps. -/
theorem invariant_of_step (hstep : ∀ s e t, I s → step s e = some t → I t) (hs : I s)
    (h : run step s es = some t) : I t :=
  invariant_run (fun s e t hI _ => hstep s e t hI) hs along_true h

/-- If, under an invariant, a step does what `R` asks exactly when `C` holds of it, and these
steps keep the invariant, then a run does what `R` asks all along exactly when `C` holds all
along. -/
theorem each_iff_each (hiff : ∀ s e t, I s → step s e = some t → (R s e t ↔ C s e t))
    (hkeep : ∀ s e t, I s → step s e = some t → C s e t → I t) (hs : I s) :
    Each step R s es ↔ Each step C s es := by
  induction es generalizing s with
  | nil => exact Iff.rfl
  | cons e es ih =>
    constructor
    · intro h t ht
      have hC : C s e t := (hiff s e t hs ht).1 (h t ht).1
      exact ⟨hC, (ih (hkeep s e t hs ht hC)).1 (h t ht).2⟩
    · intro h t ht
      have hC : C s e t := (h t ht).1
      exact ⟨(hiff s e t hs ht).2 hC, (ih (hkeep s e t hs ht hC)).2 (h t ht).2⟩

/-- If a step that breaks `P` leads to `D`, and `D` is never left again, then a run that does
not end in `D` meets `P` all along. -/
theorem along_of_not {D : σ → Prop} (hkeep : ∀ s e t, I s → step s e = some t → I t)
    (hbreak : ∀ s e t, I s → step s e = some t → ¬ P s e → D t)
    (hstay : ∀ s e t, I s → D s → step s e = some t → D t) (hs : I s)
    (h : run step s es = some t) (ht : ¬ D t) : Along step P s es := by
  induction es generalizing s with
  | nil => trivial
  | cons e es ih =>
    obtain ⟨v, hv, hrun⟩ := Option.bind_eq_some_iff.1 h
    have hI : I v := hkeep s e v hs hv
    constructor
    · by_contra hP
      have hD : I t ∧ D t := invariant_of_step (I := fun s => I s ∧ D s)
        (fun s e t hs ht => ⟨hkeep s e t hs.1 ht, hstay s e t hs.1 hs.2 ht⟩)
        ⟨hI, hbreak s e v hs hv hP⟩ hrun
      exact ht hD.2
    · intro w hw
      obtain rfl := Option.some.inj (hv.symm.trans hw)
      exact ih hI hrun

end Steps
