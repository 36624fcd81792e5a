import Jkl.Uri.DotSegmentsBuffers
import Jkl.Uri.Lossless

/-! On a rooted path the loop inside one buffer and the two buffers of RFC 3986 keep step. -/
namespace Jkl.Uri

open Rfc3986 (removeStep removeLoop removeLoop_nil removeLoop_cons firstSegment_append)

variable {i o : Bytes}

/-! The loop. -/

/-- An input that starts with a slash neither begins with a dot segment nor is one, so the order
in which the RFC looks for these does not matter. -/
theorem dotStep_rooted (h : i.head? = some ('/' : Byte)) :
    dotStep false i o = removeStep i o ∧
      ((dotStep false i o).1 = [] ∨ (dotStep false i o).1.head? = some ('/' : Byte)) := by
  obtain ⟨r, rfl⟩ : ∃ r, i = ('/' : Byte) :: r := by
    cases i with
    | nil => simp at h
    | cons c r => exact ⟨r, by simpa using h⟩
  have hA : ¬lit "./" <+: ('/' : Byte) :: r := by simp [lit]
  have hA' : ¬lit "../" <+: ('/' : Byte) :: r := by simp [lit]
  have hD : ¬(('/' : Byte) :: r = lit "." ∨ ('/' : Byte) :: r = lit "..") := by simp [lit]
  unfold dotStep removeStep
  simp only [if_neg hA, if_neg hA', if_neg hD, Bool.false_eq_true, false_and, if_false, true_and]
  split_ifs with hB hB' hC hC'
  · obtain ⟨w, hw⟩ := hB
    exact .inr (by rw [← hw]; rfl)
  · exact .inr rfl
  · obtain ⟨w, hw⟩ := hC
    exact .inr (by rw [← hw]; rfl)
  · exact .inr rfl
  · exact (@firstSegment_append (('/' : Byte) :: r)).2

theorem dotStep_empty : dotStep false i [] = removeStep i [] ∧
    ((dotStep false i []).1 = [] ∨ (dotStep false i []).1.head? = some ('/' : Byte) ∨
      (dotStep false i []).2 = []) := by
  have hdisjoint : lit "./" <+: i → ¬lit "../" <+: i := by
    rintro ⟨w, rfl⟩ h
    simp [lit] at h
  have hrest := (@firstSegment_append i).2
  unfold dotStep removeStep
  simp only [Bool.false_eq_true, false_and, if_false]
  split_ifs with h₁ h₂ h₃ h₄ h₅ h₆ h₇ h₈
  · exact absurd h₂ (hdisjoint h₁)
  · exact ⟨rfl, .inr (.inr rfl)⟩
  · exact ⟨rfl, .inr (.inr rfl)⟩
  · exact ⟨rfl, .inr (.inr rfl)⟩
  · exact ⟨rfl, .inr (.inr rfl)⟩
  · exact ⟨rfl, .inr (.inr rfl)⟩
  · exact ⟨rfl, .inr (.inr rfl)⟩
  · exact ⟨rfl, .inr (.inr rfl)⟩
  · exact ⟨rfl, hrest.imp_right .inl⟩

/-- The loop without the skip does what the RFC says, also off a `'/'` while nothing has been
put out. -/
theorem removeLoop_eq_dotRun (h : i = [] ∨ i.head? = some ('/' : Byte) ∨ o = []) :
    removeLoop i o = dotRun false i o := by
  fun_induction dotRun false i o with
  | case1 => exact removeLoop_nil
  | case2 i o hi ih =>
    have hstep : dotStep false i o = removeStep i o ∧ ((dotStep false i o).1 = [] ∨
        (dotStep false i o).1.head? = some ('/' : Byte) ∨ (dotStep false i o).2 = []) := by
      obtain hslash | rfl := h.resolve_left hi
      · obtain ⟨heq, hnext⟩ := @dotStep_rooted i o hslash
        exact ⟨heq, hnext.imp_right .inl⟩
      · exact dotStep_empty
    rw [removeLoop_cons hi, ← hstep.1]
    exact ih hstep.2

/-- On a path that begins with `'/'` the result is that of RFC 3986. -/
theorem dotLoop_rooted {path : Bytes} (h : path.head? = some ('/' : Byte)) :
    (dotLoop false path).done = Rfc3986.removeDotSegments path := by
  have hne : path ≠ [] := fun e => by simp [e] at h
  rw [dotLoop_pair hne, Rfc3986.removeDotSegments, removeLoop_eq_dotRun (.inr (.inr rfl))]

/-! What is appended. -/

variable {asserts : Bool} {codec : Codec} {path : Bytes}

theorem removeDots_yields {o : Out} (h : o.Yields path) (hp : path.head? = some ('/' : Byte)) :
    (removeDots (isRelative path) o).Yields (Rfc3986.removeDotSegments path) := by
  have hrel : isRelative path = false := by simp [isRelative, hp]
  obtain ⟨hs, rfl⟩ := h
  rw [hrel]
  unfold removeDots
  split
  · next e he => simp [hs] at he
  · exact ⟨rfl, dotLoop_rooted hp⟩

theorem removeDotSegmentsAppend_yields (hp : path = [] ∨ path.head? = some ('/' : Byte)) :
    (removeDotSegmentsAppend asserts .path codec codec path).Yields
      (Rfc3986.removeDotSegments path) := by
  unfold removeDotSegmentsAppend
  split_ifs with h
  · rw [h, Rfc3986.removeDotSegments, Rfc3986.removeLoop_nil]
    exact Out.yields_ok
  · rw [codecCvtAppend_copy (.inl rfl)]
    exact removeDots_yields Out.yields_ok (hp.resolve_left h)

theorem head?_escapeAppend_slash {k : NoEscCat} (hk : isNoEsc k ('/' : Byte) = true)
    (h : path.head? = some ('/' : Byte)) :
    (escapeAppend k path).head? = some ('/' : Byte) := by
  cases path with
  | nil => simp at h
  | cons c p =>
    obtain rfl : c = '/' := by simpa using h
    rw [escapeAppend_cons, escapeByte_of_noEsc hk]
    rfl

theorem codecCvtAppend_rooted {dest : Codec} (h : path.head? = some ('/' : Byte))
    (ho : (codecCvtAppend asserts .path dest codec path).stop = none) :
    (codecCvtAppend asserts .path dest codec path).text.head? = some ('/' : Byte) := by
  unfold codecCvtAppend at *
  split_ifs at * with hd he
  · cases path with
    | nil => simp at h
    | cons c p =>
      obtain rfl : c = '/' := by simpa using h
      have hcons : decodeAppend .path (('/' : Byte) :: p) = .ok ['/'] ++ unescapeAppend false p :=
        unescapeAppend_cons (by decide) (by simp)
      rw [hcons, (Out.append_of_none (Out.stop_ok)).1]
      rfl
  · exact head?_escapeAppend_slash (by decide) h
  · exact h

/-- On a path that begins with `'/'` both functions return what RFC 3986 says, and output never
gets into unread input. -/
theorem remove_dot_segments_rooted (asserts : Bool) (dest codec : Codec) (path : Bytes)
    (h : path.head? = some ('/' : Byte)) :
    let o := codecCvtAppend asserts .path dest codec path
    let r := removeDotSegmentsAppend asserts .path dest codec path
    r.stop = o.stop ∧
      (o.stop = none → r.text = Rfc3986.removeDotSegments o.text ∧
        KeepsUnread (isRelative path) o.text) ∧
      (removeDotSegmentsInplace (.ok path)).Yields (Rfc3986.removeDotSegments path) ∧
      KeepsUnread (isRelative path) path := by
  intro o r
  have hne : path ≠ [] := fun e => by simp [e] at h
  have hr : r = removeDots (isRelative path) o := if_neg hne
  refine ⟨?_, ?_, ?_, keepsUnread hne⟩
  · rw [hr]
    unfold removeDots
    split
    · rfl
    · next ho => exact ho.symm
  · intro ho
    have hhead : o.text.head? = some ('/' : Byte) := codecCvtAppend_rooted h ho
    have hrel : isRelative path = isRelative o.text := by simp [isRelative, h, hhead]
    have hyields := @removeDots_yields o.text o ⟨ho, rfl⟩ hhead
    rw [hr, hrel]
    exact ⟨hyields.2, keepsUnread fun e => by simp [e] at hhead⟩
  · rw [removeDotSegmentsInplace, Out.text_ok, if_neg hne]
    exact removeDots_yields Out.yields_ok h

theorem remove_dot_segments_rooted_up :
    (removeDotSegmentsInplace (.ok (lit "/a/.b/../c/..//."))).Yields
      (Rfc3986.removeDotSegments (lit "/a/.b/../c/..//.")) :=
  (remove_dot_segments_rooted true .urlEncoded .urlDecoded _ (by decide)).2.2.1

end Jkl.Uri
