import Jkl.Uri.NormalizeSpec
import Jkl.Uri.UrlDecode

/-! The two loops that put percent escapes in upper case. The one that appends looks for the next
`'%'` before it knows that there is a next byte, and for the digits where that `'%'` stands. -/
namespace Jkl.Uri

variable {past b c : Byte} {s : Bytes}

/-- What the loop leaves, and whether it looked at the byte behind the text. -/
structure Scan where
  out : Out
  overread : Bool
deriving DecidableEq

/-- The loop of `normalize_pcnt_encoding_append`; `past` is what stands behind the text. -/
def pcntAppend (past : Byte) : Bytes → Scan
  | [] => ⟨.ok [], false⟩
  | c :: s =>
    let rest : Scan :=
      -- `*it`, with `it` behind the byte that has been copied
      if s.headD past = '%' then
        match s with
        | a :: b :: s' =>
          match unhex a b with
          | some _ =>
            ⟨.ok [toUpper a, toUpper b] ++ (pcntAppend past s').out,
              (pcntAppend past s').overread⟩
          | none => ⟨.halt (.err .invalidHex), false⟩
        | _ => ⟨.halt (.err .invalidHex), false⟩
      else pcntAppend past s
    ⟨.ok [c] ++ rest.out, s.isEmpty || rest.overread⟩

/-- `normalize_pcnt_encoding_append`. -/
def normalizePcntAppend (pcntEncoded : Bool) (past : Byte) (s : Bytes) : Scan :=
  if pcntEncoded then pcntAppend past s else ⟨.ok s, false⟩

/-- The loops agree on a text: both succeed or neither, with the same text, and the one that
appends keeps to the text. -/
structure NormalisersAgree (past : Byte) (s : Bytes) : Prop where
  stop : (normalizePcntAppend true past s).out.stop = none ↔
    ((Out.ok s).normalizePcntInplace true).stop = none
  text : (normalizePcntAppend true past s).out.stop = none →
    (normalizePcntAppend true past s).out.text = ((Out.ok s).normalizePcntInplace true).text ∧
      (normalizePcntAppend true past s).out.text = upperPct s
  within : (normalizePcntAppend true past s).overread = false

/-! The loop in place. -/

theorem upperDigits_isSome : (upperDigits s).isSome = true ↔ WellEscaped s := by
  fun_induction upperDigits s with
  | case1 => exact iff_of_true rfl wellEscaped_nil
  | case2 a b s hx ih =>
    obtain ⟨v, hv⟩ := Option.isSome_iff_exists.1 hx
    obtain ⟨ha, hb⟩ := isHex_of_unhex hv
    rw [Option.isSome_map, ih]
    exact ⟨fun h => wellEscaped_pct.2 ⟨a, b, s, rfl, ha, hb, h⟩, fun h => h.hex.2.2⟩
  | case3 a b s hx =>
    refine iff_of_false (by simp) fun h => hx ?_
    rw [unhex_of_isHex h.hex.1 h.hex.2.1]
    rfl
  | case4 s hs =>
    refine iff_of_false (by simp) fun h => ?_
    obtain ⟨x, y, r, rfl, -⟩ := wellEscaped_pct.1 h
    exact hs x y r rfl
  | case5 c s hc ih => rw [Option.isSome_map, ih, wellEscaped_cons hc]

theorem stop_normalizePcntInplace :
    ((Out.ok s).normalizePcntInplace true).stop = none ↔ WellEscaped s := by
  rw [← upperDigits_isSome]
  unfold Out.normalizePcntInplace
  simp only [if_true, Out.stop_ok]
  split
  · next r hr => exact iff_of_true rfl (by rw [← Out.text_ok (s := s), hr]; rfl)
  · next hr => exact iff_of_false (by simp) (by rw [← Out.text_ok (s := s), hr]; simp)

/-! The loop that appends. -/

theorem unhex_pct : ∀ b, unhex '%' b = none := forall_byte (by decide +kernel)

/-- Any `'%'` that the loop meets is taken for its own first digit. -/
theorem pcntAppend_pct : pcntAppend past (c :: ('%' : Byte) :: s) =
    ⟨.ok [c] ++ .halt (.err .invalidHex), false⟩ := by
  cases s with
  | nil => rfl
  | cons b s => simp [pcntAppend, unhex_pct]

theorem pcntAppend_cons (hc : b ≠ '%') : pcntAppend past (c :: b :: s) =
    ⟨.ok [c] ++ (pcntAppend past (b :: s)).out, (pcntAppend past (b :: s)).overread⟩ := by
  rw [pcntAppend.eq_def]
  simp only [List.headD_cons, hc, if_false, List.isEmpty_cons, Bool.false_or]

theorem overread_pcntAppend :
    (pcntAppend past (c :: s)).overread = true ↔ ('%' : Byte) ∉ s := by
  induction s generalizing c with
  | nil => simp [pcntAppend]
  | cons b s ih =>
    by_cases hb : b = '%'
    · rw [hb, pcntAppend_pct]
      simp
    · rw [pcntAppend_cons hb, ih, List.mem_cons, not_or]
      exact (and_iff_right (Ne.symm hb)).symm

theorem stop_pcntAppend (h : ('%' : Byte) ∈ s) :
    (pcntAppend past (c :: s)).out.stop = some (.err .invalidHex) := by
  induction s generalizing c with
  | nil => cases h
  | cons b s ih =>
    by_cases hb : b = '%'
    · rw [hb, pcntAppend_pct, (Out.append_of_none Out.stop_ok).2.2, Out.stop_halt]
    · have hs : ('%' : Byte) ∈ s := (List.mem_cons.1 h).resolve_left (Ne.symm hb)
      rw [pcntAppend_cons hb, (Out.append_of_none Out.stop_ok).2.2, ih hs]

/-- The loops agree on the empty text and where both fail; on all other texts the one that appends
reads on behind the end, or fails alone. -/
theorem normalisersAgree_iff (past : Byte) (s : Bytes) :
    NormalisersAgree past s ↔ s = [] ∨ ('%' : Byte) ∈ s.tail ∧ ¬WellEscaped s := by
  cases s with
  | nil => exact iff_of_true ⟨Iff.rfl, fun _ => ⟨rfl, rfl⟩, rfl⟩ (.inl rfl)
  | cons c s =>
    rw [List.tail_cons]
    constructor
    · intro h
      have hmem : ('%' : Byte) ∈ s := by
        by_contra hn
        have := (@overread_pcntAppend past c s).2 hn
        exact absurd (this.symm.trans h.within) (by decide)
      refine .inr ⟨hmem, fun hw => ?_⟩
      have hstop : (pcntAppend past (c :: s)).out.stop = none :=
        h.stop.2 (stop_normalizePcntInplace.2 hw)
      rw [stop_pcntAppend hmem] at hstop
      cases hstop
    · rintro (h | ⟨hmem, hw⟩)
      · cases h
      · have hstop : (normalizePcntAppend true past (c :: s)).out.stop ≠ none := by
          rw [normalizePcntAppend, if_pos rfl, stop_pcntAppend hmem]
          simp
        refine ⟨iff_of_false hstop fun h => hw (stop_normalizePcntInplace.1 h),
          fun h => absurd h hstop, ?_⟩
        rw [normalizePcntAppend, if_pos rfl, ← Bool.not_eq_true, overread_pcntAppend]
        exact not_not.2 hmem

theorem not_normalisersAgree_hex : ¬∀ past s, NormalisersAgree past s :=
  fun h => absurd ((h 0 (lit "a%41")).stop.2 (by decide +kernel)) (by decide +kernel)

end Jkl.Uri
