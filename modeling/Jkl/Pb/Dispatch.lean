import Jkl.Pb.Reader
import Mathlib.Data.List.Range

/-! The `switch` of `read_sub_flds` as a function of the tag. -/
namespace Jkl.Pb

/-- The number of labels of the `switch`, in blocks of 32. -/
def labels (cnt : ℕ) : ℕ := 32 * max 1 ((cnt + 31) / 32)

/-- A label that belongs to no field. -/
def isPadding (cnt tag : ℕ) : Bool := 0xffffff ≤ tag && tag < 0xffffff + (labels cnt - cnt)

theorem isPadding_iff {cnt tag : ℕ} :
    isPadding cnt tag = true ↔ 0xffffff ≤ tag ∧ tag < 0xffffff + (labels cnt - cnt) := by
  rw [isPadding, Bool.and_eq_true, decide_eq_true_eq, decide_eq_true_eq]

theorem le_labels (cnt : ℕ) : cnt ≤ labels cnt := by
  unfold labels
  omega

theorem labels_eq {cnt q : ℕ} (hq : q = 0 ∨ 32 * q < cnt) (h : cnt ≤ 32 * q + 32) :
    labels cnt = 32 * q + 32 := by
  unfold labels
  omega

/-- The blocks together try all labels in turn. -/
theorem findCase_block (cases : List Case) (tag : ℕ) {blocks q : ℕ}
    (hq : q = 0 ∨ 32 * q < cases.length) (hb : cases.length < 32 * q + 32 * blocks) :
    findCase cases tag blocks (32 * q) =
      (List.range' (32 * q) (labels cases.length - 32 * q)).find? fun i => caseTag cases i = tag := by
  induction blocks generalizing q with
  | zero =>
    have := le_labels cases.length
    omega
  | succ blocks ih =>
    have hblock : (List.range' (32 * q) 32).find? (fun i => caseTag cases i = tag) =
        ((List.range 32).find? fun N => caseTag cases (32 * q + N) = tag).map (32 * q + ·) := by
      rw [List.range'_eq_map_range, List.find?_map]
      rfl
    have hsplit : ∀ n, List.range' (32 * q) (32 + n) =
        List.range' (32 * q) 32 ++ List.range' (32 * (q + 1)) n := by
      intro n
      rw [show 32 * (q + 1) = 32 * q + 1 * 32 by ring, List.range'_append]
    unfold findCase
    by_cases hnext : 32 * q + 32 < cases.length
    · have hlab : labels cases.length - 32 * q = 32 + (labels cases.length - 32 * (q + 1)) := by
        have := le_labels cases.length
        omega
      have hrest := ih (q := q + 1) (Or.inr (by omega)) (by omega)
      rw [hlab, hsplit, List.find?_append, hblock, ← hrest]
      cases (List.range 32).find? fun N => caseTag cases (32 * q + N) = tag with
      | none =>
        have hmin : min (32 * q + 32) cases.length = 32 * (q + 1) := by omega
        simp only [hmin, if_pos (show 32 * (q + 1) < cases.length by omega), Option.map_none,
          Option.none_or]
      | some N => rfl
    · have hlab : labels cases.length - 32 * q = 32 := by
        rw [labels_eq hq (by omega)]
        omega
      rw [hlab, hblock]
      cases (List.range 32).find? fun N => caseTag cases (32 * q + N) = tag with
      | none =>
        have hmin : min (32 * q + 32) cases.length = cases.length := by omega
        simp only [hmin, lt_irrefl, if_false, Option.map_none]
      | some N => rfl

theorem findCase_eq (cases : List Case) (tag : ℕ) :
    findCase cases tag (cases.length + 1) 0 =
      (List.range (labels cases.length)).find? fun i => caseTag cases i = tag := by
  have hb : cases.length < 32 * 0 + 32 * (cases.length + 1) := by omega
  have h := findCase_block cases tag (Or.inl rfl) hb
  simpa [List.range_eq_range'] using h

/-- The labels of the fields come first. -/
theorem findCase_own (cases : List Case) (tag : ℕ) :
    ((List.range cases.length).find? fun i => caseTag cases i = tag).bind (fun i => cases[i]?) =
      ownCase cases tag := by
  unfold ownCase
  induction cases with
  | nil => rfl
  | cons c cs ih =>
    have hshift : ∀ i, caseTag (c :: cs) (i + 1) = caseTag cs i := by
      intro i
      simp only [caseTag, List.getElem?_cons_succ, List.length_cons]
      split
      · rfl
      · omega
    have hzero : caseTag (c :: cs) 0 = c.tag := rfl
    rw [List.length_cons, List.range_succ_eq_map, List.find?_cons, List.find?_cons, List.find?_map,
      hzero]
    by_cases hc : c.tag = tag
    · simp [hc]
    · simp only [hc, decide_false, ← ih, Function.comp_def, Nat.succ_eq_add_one, hshift]
      cases (List.range cs.length).find? fun i => caseTag cs i = tag <;> rfl

theorem find_padding {cases : List Case} {tag : ℕ} (n : ℕ) :
    ((List.range' cases.length n).find? fun i => caseTag cases i = tag) =
      if 0xffffff ≤ tag ∧ tag < 0xffffff + n then some (cases.length + (tag - 0xffffff)) else none := by
  have hcase : ∀ i, cases.length ≤ i → caseTag cases i = 0xffffff + i - cases.length := by
    intro i hi
    unfold caseTag
    rw [List.getElem?_eq_none hi]
  split_ifs with h
  · rw [List.find?_range'_eq_some]
    refine ⟨?_, ?_, ?_⟩
    · rw [hcase _ (by omega)]
      simp only [decide_eq_true_eq]
      omega
    · simp
      omega
    · intro j hj hlt
      rw [hcase j hj]
      simp
      omega
  · rw [List.find?_eq_none]
    intro i hi
    obtain ⟨hlo, hhi⟩ : cases.length ≤ i ∧ i < cases.length + n := by simpa using hi
    rw [hcase i hlo]
    simp
    omega

/-- What the `switch` does with a tag: the field that has it, an unreachable label, or neither. -/
theorem readSubFlds_eq (cases : List Case) (tag : ℕ) (mem : List UInt8) (lim : ℕ) (vs : List Val)
    (bits : Bits) :
    readSubFlds cases tag mem lim vs bits =
      match ownCase cases tag with
      | some c => c.run mem lim vs bits
      | none => if isPadding cases.length tag then .stop .unreachable else .err (.tagMismatch, vs) := by
  have hle := le_labels cases.length
  have hsplit : List.range (labels cases.length) =
      List.range cases.length ++ List.range' cases.length (labels cases.length - cases.length) := by
    rw [List.range_eq_range', List.range_eq_range',
      show labels cases.length = cases.length + (labels cases.length - cases.length) by omega,
      ← List.range'_append_1]
    simp
  unfold readSubFlds
  rw [findCase_eq, hsplit, List.find?_append, find_padding, ← findCase_own]
  cases hf : (List.range cases.length).find? fun i => caseTag cases i = tag with
  | some i =>
    have hi : i < cases.length := by simpa using List.mem_of_find?_eq_some hf
    simp [List.getElem?_eq_getElem hi]
  | none =>
    rw [Option.none_or, Option.bind_none]
    by_cases hp : isPadding cases.length tag = true
    · rw [if_pos (isPadding_iff.mp hp), if_pos hp]
      simp
    · rw [if_neg (mt isPadding_iff.mpr hp), if_neg hp]

theorem ownCase_eq_some {cases : List Case} {tag : ℕ} {c : Case} (h : ownCase cases tag = some c) :
    c ∈ cases ∧ c.tag = tag :=
  ⟨List.mem_of_find?_eq_some h, by simpa using List.find?_some h⟩

end Jkl.Pb
