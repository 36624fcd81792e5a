import Jkl.Uri.DotSegmentsRuns
import Jkl.Uri.DotSegmentsSpec

/-! Relative paths: where the loop and RFC 3986 part, and when they meet again. -/
namespace Jkl.Uri

open Rfc3986 (dropLastSegment)

variable {s x : Bytes} {L A B c : List Bytes}

/-! The two runs, by what their outputs do not share. -/

/-- What is at the bottom of the two outputs: the first segment of the loop's, if it has one, and
those segments of the RFC's, from the top down, that are below the segments both have. -/
structure Bottoms where
  ours : Option Bytes
  theirs : List Bytes
  shared : ℕ
deriving DecidableEq

/-- Where the loop is: it has only passed over dots, it is at a `'/'`, or it is behind the `'/'`
that the first segment of its output has taken along. -/
inductive Place where
  | start
  | slash
  | away
deriving DecidableEq

namespace Bottoms

/-- The RFC has the first segment of the loop below those both have, and no other, or none if the
loop has none. -/
def Even (k : Bottoms) : Prop := k.theirs = k.ours.toList

instance (k : Bottoms) : Decidable k.Even := inferInstanceAs (Decidable (_ = _))

def put (k : Bottoms) (s : Bytes) : Bottoms :=
  match k.ours with
  | none => ⟨some s, s :: k.theirs, 0⟩
  | some x => ⟨some x, k.theirs, k.shared + 1⟩

/-- Both outputs drop a segment. An empty one that is left alone is the loop's empty output. -/
def up (k : Bottoms) : Bottoms :=
  match k.ours, k.shared with
  | some x, n + 1 => if x = [] ∧ n = 0 then ⟨none, k.theirs, 0⟩ else ⟨some x, k.theirs, n⟩
  | _, _ => ⟨none, k.theirs.tail, 0⟩

end Bottoms

/-- What a segment does. Away from a `'/'` the loop passes over `".."`. -/
def nextBottoms (p : Place) (k : Bottoms) (s : Bytes) : Place × Bottoms :=
  if s = lit "." then (p, k)
  else if s = lit ".." then
    match p with
    | .start => (.start, k)
    | .slash => (.slash, k.up)
    | .away => (.away, { k with theirs := k.theirs.tail })
  else
    match p with
    | .start => (.slash, if s = [] then k else k.put s)
    | .slash => (if k.ours = none then .away else .slash, k.put s)
    | .away => (.slash, k.put s)

/-- By the segments that are still to come no segment is left over at one of the bottoms. Dots that
end the path away from a `'/'` make the loop forget its own, so the RFC must have none left. -/
def Meet : Place → Bottoms → List Bytes → Prop
  | _, k, [] => k.Even
  | p, k, s :: L =>
    if p = .away ∧ L = [] ∧ (s = lit "." ∨ s = lit "..") then (nextBottoms p k s).2.theirs = []
    else Meet (nextBottoms p k s).1 (nextBottoms p k s).2 L

instance decidableMeet : ∀ p k L, Decidable (Meet p k L)
  | _, k, [] => inferInstanceAs (Decidable k.Even)
  | p, k, s :: L =>
    have := decidableMeet (nextBottoms p k s).1 (nextBottoms p k s).2 L
    inferInstanceAs (Decidable (if p = .away ∧ L = [] ∧ (s = lit "." ∨ s = lit "..") then
      (nextBottoms p k s).2.theirs = [] else Meet (nextBottoms p k s).1 (nextBottoms p k s).2 L))

/-- The segments of the path leave none over. -/
def StaysInStep (path : Bytes) : Prop := Meet .start ⟨none, [], 0⟩ (path.splitOn ('/' : Byte))

instance : DecidablePred StaysInStep := fun _ => decidableMeet _ _ _

/-- Without the `'/'` it begins with. -/
def unrooted (s : Bytes) : Bytes := if s.head? = some ('/' : Byte) then s.tail else s

theorem nextBottoms_plain {p : Place} {k : Bottoms} (hs : Plain s) : nextBottoms p k s =
    match p with
    | .start => (.slash, if s = [] then k else k.put s)
    | .slash => (if k.ours = none then .away else .slash, k.put s)
    | .away => (.slash, k.put s) := by
  unfold nextBottoms
  rw [if_neg hs.2.1, if_neg hs.2.2]

theorem meet_plain {p : Place} {k : Bottoms} (hs : Plain s) :
    Meet p k (s :: L) ↔ Meet (nextBottoms p k s).1 (nextBottoms p k s).2 L := by
  rw [Meet, if_neg fun h => h.2.2.elim hs.2.1 hs.2.2]

theorem meet_on {p : Place} {k : Bottoms} (h : p ≠ .away ∨ L ≠ []) :
    Meet p k (s :: L) ↔ Meet (nextBottoms p k s).1 (nextBottoms p k s).2 L := by
  rw [Meet, if_neg fun hc => h.elim (fun hp => hp hc.1) fun hL => hL hc.2.1]

theorem unrooted_rootPath : unrooted (rootPath L) = relPath L := by
  cases L with
  | nil => rfl
  | cons x L =>
    rw [relPath_cons]
    rfl

variable {k : Bottoms}

@[simp] theorem even_put : (k.put s).Even ↔ k.Even := by
  obtain ⟨_ | x, theirs, n⟩ := k
  · simp [Bottoms.put, Bottoms.Even]
  · rfl

theorem plain_nil : Plain [] := ⟨List.not_mem_nil, by decide, by decide⟩

theorem plain_cases (hs : ('/' : Byte) ∉ s) : s = lit "." ∨ s = lit ".." ∨ Plain s := by
  by_cases h : s = lit "."
  · exact .inl h
  · by_cases h' : s = lit ".."
    · exact .inr (.inl h')
    · exact .inr (.inr ⟨hs, h, h'⟩)

/-- The segments both outputs have are `c`. -/
structure Bottoms.Fits (k : Bottoms) (c : List Bytes) : Prop where
  shared : k.shared = c.length
  of_none : k.ours = none → c = []
  of_some : ∀ x, k.ours = some x → x ≠ [] ∨ c ≠ []
  segments : Segments (k.ours.toList ++ c)
  theirs : Segments k.theirs

def Bottoms.ourText (k : Bottoms) (c : List Bytes) : Bytes := relPath (k.ours.toList ++ c)

def Bottoms.theirText (k : Bottoms) (c : List Bytes) : Bytes := rootPath (k.theirs.reverse ++ c)

theorem Segments.dropLast (h : Segments A) : Segments A.dropLast :=
  fun x hx => h x (List.mem_of_mem_dropLast hx)

theorem relPath_append (h : A ≠ []) : relPath (A ++ B) = relPath A ++ rootPath B := by
  obtain ⟨x, L, rfl⟩ := List.exists_cons_of_ne_nil h
  rw [List.cons_append, relPath_cons, relPath_cons, rootPath_append, List.append_assoc]

/-- With a segment on top that both have, the outputs are the same only if their bottoms are. -/
theorem relPath_even (ho : Segments (k.ours.toList ++ c)) (ht : Segments (k.theirs.reverse ++ c))
    (hc : c ≠ []) : relPath (k.ours.toList ++ c) = relPath (k.theirs.reverse ++ c) ↔ k.Even := by
  have hne : ∀ A : List Bytes, A ++ c ≠ [] := fun A => by simp [hc]
  rw [relPath_inj ho ht (hne _) (hne _), List.append_left_inj, eq_comm, List.reverse_eq_iff]
  unfold Bottoms.Even
  cases k.ours <;> rfl

theorem Bottoms.Fits.ourText_eq_nil (h : k.Fits c) : k.ourText c = [] ↔ k.ours = none := by
  unfold Bottoms.ourText
  cases hk : k.ours with
  | none => simp [h.of_none hk]
  | some x =>
    have := h.of_some x hk
    rw [Option.toList_some, List.singleton_append, relPath_cons]
    cases c with
    | nil => simpa using this
    | cons y c => simp [rootPath_cons]

theorem fits_nil : (⟨none, [], 0⟩ : Bottoms).Fits [] :=
  ⟨rfl, fun _ => rfl, by simp, by simp [Segments], by simp [Segments]⟩

theorem Bottoms.Fits.put {x : Bytes} (h : k.Fits c) (hk : k.ours = some x)
    (hs : ('/' : Byte) ∉ s) : (k.put s).Fits (c ++ [s]) ∧
      (k.put s).ourText (c ++ [s]) = k.ourText c ++ ('/' : Byte) :: s ∧
      (k.put s).theirText (c ++ [s]) = k.theirText c ++ ('/' : Byte) :: s := by
  obtain ⟨_, theirs, n⟩ := k
  obtain rfl : _ = some x := hk
  refine ⟨⟨?_, by simp [Bottoms.put], by simp [Bottoms.put], ?_, h.theirs⟩, ?_, ?_⟩
  · have := h.shared
    simp only [Bottoms.put, List.length_append, List.length_singleton]
    exact congrArg (· + 1) this
  · have := h.segments.append (segments_singleton hs)
    rwa [List.append_assoc] at this
  · simp [Bottoms.put, Bottoms.ourText, relPath_cons, rootPath_append, rootPath_cons]
  · simp [Bottoms.put, Bottoms.theirText, rootPath_append, rootPath_cons]

theorem Bottoms.Fits.up (h : k.Fits c) : k.up.Fits c.dropLast ∧
    k.up.ourText c.dropLast = dropLastSegment (k.ourText c) ∧
    k.up.theirText c.dropLast = dropLastSegment (k.theirText c) := by
  have htheirs : Segments (k.theirs.reverse ++ c) := by
    refine (segments_reverse.2 h.theirs).append fun x hx => h.segments x ?_
    exact List.mem_append_right _ hx
  unfold Bottoms.ourText Bottoms.theirText
  rw [dropLastSegment_relPath h.segments, dropLastSegment_rootPath htheirs]
  obtain ⟨_ | x, theirs, n⟩ := k
  · obtain rfl : c = [] := h.of_none rfl
    refine ⟨⟨rfl, fun _ => rfl, by simp [Bottoms.up], by simp [Bottoms.up, Segments],
      h.theirs.tail⟩, rfl, ?_⟩
    simp [Bottoms.up, List.dropLast_reverse]
  · obtain rfl | ⟨c, y, rfl⟩ := List.eq_nil_or_concat' c
    · obtain rfl : n = 0 := h.shared
      refine ⟨⟨rfl, fun _ => rfl, by simp [Bottoms.up], by simp [Bottoms.up, Segments],
        h.theirs.tail⟩, rfl, ?_⟩
      simp [Bottoms.up, List.dropLast_reverse]
    · obtain rfl : n = c.length + 1 := by simpa using h.shared
      have hseg : Segments (x :: c) := fun s hs => h.segments s (by
        rw [Option.toList_some, List.singleton_append, ← List.cons_append]
        exact List.mem_append_left _ hs)
      have hour : ((some x).toList ++ (c ++ [y])).dropLast = x :: c := by
        rw [← List.append_assoc, List.dropLast_concat]
        rfl
      have htheir : (theirs.reverse ++ (c ++ [y])).dropLast = theirs.reverse ++ c := by
        rw [← List.append_assoc, List.dropLast_concat]
      simp only [hour, htheir, List.dropLast_concat, Bottoms.up]
      split_ifs with hx
      · obtain ⟨rfl, hc⟩ := hx
        obtain rfl : c = [] := List.length_eq_zero_iff.1 hc
        exact ⟨⟨rfl, fun _ => rfl, by simp, by simp [Segments], h.theirs⟩, rfl, rfl⟩
      · have hput : x ≠ [] ∨ c ≠ [] := by
          by_contra hc
          rw [not_or, not_not, not_not] at hc
          exact hx ⟨hc.1, by rw [hc.2]; rfl⟩
        exact ⟨⟨rfl, by simp, fun z hz => by rwa [← Option.some.inj hz], hseg, h.theirs⟩, rfl,
          rfl⟩

/-! The runs from each place. -/

/-- From a `'/'` on, the loop and the RFC end with the same text exactly if they meet. -/
def SlashMeets (L : List Bytes) : Prop :=
  ∀ k c, Bottoms.Fits k c →
    (dotRun true (rootPath L) (k.ourText c) = unrooted (dotRun false (rootPath L) (k.theirText c)) ↔
      Meet .slash k L)

/-- So they do from behind the `'/'` that the first segment has taken along. -/
def AwayMeets (L : List Bytes) : Prop :=
  ∀ x theirs, ('/' : Byte) ∉ x → Segments theirs →
    (dotRun true (relPath L) (x ++ [('/' : Byte)]) =
        unrooted (dotRun false (rootPath L) (rootPath theirs.reverse)) ↔
      Meet .away ⟨some x, theirs, 0⟩ L)

theorem dotRun_theirs (hs : Plain s) : dotRun false (rootPath (s :: L)) (rootPath A) =
    dotRun false (rootPath L) (rootPath (A ++ [s])) := by
  rw [dotRun_put hs (by simp), rootPath_append, rootPath_cons, rootPath_nil, List.append_nil]

theorem slashMeets_one (hs : Plain s) : SlashMeets [s] := by
  intro k c h
  have hmeet : Meet .slash k [s] ↔ k.Even := by
    rw [meet_plain hs, nextBottoms_plain hs, Meet, even_put]
  have hc : c ++ [s] ≠ [] := by simp
  have hone := segments_singleton hs.1
  have hours : dotRun true (rootPath [s]) (k.ourText c) =
      relPath (k.ours.toList ++ (c ++ [s])) := by
    cases hk : k.ours with
    | none =>
      rw [h.ourText_eq_nil.2 hk, dotRun_skip hs, if_pos rfl, h.of_none hk]
      simp [relPath_cons]
    | some x =>
      have hne : k.ourText c ≠ [] := fun e => by simp [h.ourText_eq_nil.1 e] at hk
      have happ := @relPath_append ((some x).toList ++ c) [s] (by simp)
      rw [dotRun_put hs (fun e => hne e.2), rootPath_nil, dotRun_nil, Bottoms.ourText, hk,
        ← List.append_assoc, happ, rootPath_cons, rootPath_nil, List.append_nil]
  rw [hours, Bottoms.theirText, dotRun_theirs hs, rootPath_nil, dotRun_nil, unrooted_rootPath,
    List.append_assoc, relPath_even _ _ hc, hmeet]
  · rw [← List.append_assoc]
    exact h.segments.append hone
  · have hseg : Segments c := fun x hx => h.segments x (List.mem_append_right _ hx)
    exact (segments_reverse.2 h.theirs).append (hseg.append hone)

theorem meet_behindDots : Meet .slash k (behindDots L) ↔ Meet .slash k L := by
  cases L with
  | nil => rw [behindDots, if_pos rfl, meet_plain plain_nil, nextBottoms_plain plain_nil, Meet,
      Meet, even_put]
  | cons t L => rw [behindDots, if_neg (List.cons_ne_nil t L)]

theorem slashMeets_behindDots (h : L ≠ [] → SlashMeets L) : SlashMeets (behindDots L) := by
  cases L with
  | nil => exact slashMeets_one plain_nil
  | cons t L => exact h (List.cons_ne_nil t L)

/-- One segment at a `'/'`. -/
theorem slashMeets_cons (hs : ('/' : Byte) ∉ s) (h : L ≠ [] → SlashMeets L ∧ AwayMeets L) :
    SlashMeets (s :: L) := by
  have hbehind := slashMeets_behindDots fun hL => (h hL).1
  obtain rfl | rfl | hplain := plain_cases hs
  · intro k c hk
    rw [dotRun_dot, dotRun_dot, hbehind k c hk, meet_behindDots, meet_on (.inl (by decide))]
    rfl
  · intro k c hk
    obtain ⟨hup, hours, htheirs⟩ := hk.up
    rw [dotRun_dots, dotRun_dots, ← hours, ← htheirs, hbehind _ _ hup, meet_behindDots,
      meet_on (.inl (by decide))]
    rfl
  by_cases hL : L = []
  · rw [hL]
    exact slashMeets_one hplain
  intro k c hk
  rw [meet_plain hplain, nextBottoms_plain hplain]
  cases hours : k.ours with
  | none =>
    obtain rfl := hk.of_none hours
    have haway := (h hL).2 s (s :: k.theirs) hs (segments_cons.2 ⟨hs, hk.theirs⟩)
    rw [hk.ourText_eq_nil.2 hours, dotRun_skip hplain, if_neg hL, Bottoms.theirText,
      dotRun_theirs hplain, List.append_nil, ← List.reverse_cons, haway]
    simp [Bottoms.put, hours]
  | some x =>
    have hne : k.ourText c ≠ [] := fun e => by simp [hk.ourText_eq_nil.1 e] at hours
    obtain ⟨hput, hour, htheir⟩ := hk.put hours hs
    rw [dotRun_put hplain fun e => hne e.2, dotRun_put hplain (by simp), ← hour, ← htheir,
      (h hL).1 _ _ hput]
    rfl

theorem behindDots_of_ne_nil (h : L ≠ []) : behindDots L = L := if_neg h

/-- Dots at the end, away from a `'/'`: nothing is left of one output. -/
theorem nil_eq_unrooted (hA : Segments A) :
    [] = unrooted (dotRun false (rootPath (behindDots [])) (rootPath A.reverse)) ↔ A = [] := by
  have hnil : Segments [[]] := segments_singleton List.not_mem_nil
  have heven := @relPath_even [[]] ⟨none, A, 0⟩ hnil ((segments_reverse.2 hA).append hnil)
    (List.cons_ne_nil _ _)
  rw [behindDots, if_pos rfl, dotRun_theirs plain_nil, rootPath_nil, dotRun_nil, unrooted_rootPath]
  exact heven

/-- A segment behind the first one of the output. -/
theorem dotRun_second (hs : Plain s) : dotRun true (relPath (s :: L)) (x ++ [('/' : Byte)]) =
    dotRun true (rootPath L) (relPath [x, s]) := by
  have hpath : relPath [x, s] = x ++ [('/' : Byte)] ++ s := by
    simp [relPath_cons, rootPath_cons]
  rw [hpath]
  by_cases hne : s = []
  · rw [hne, relPath_cons, List.nil_append, List.append_nil]
  · exact dotRun_first hs hne

/-- One segment away from a `'/'`. -/
theorem awayMeets_cons (hs : ('/' : Byte) ∉ s) (h : L ≠ [] → SlashMeets L ∧ AwayMeets L) :
    AwayMeets (s :: L) := by
  intro x theirs hx ht
  have hdrop : dropLastSegment (rootPath theirs.reverse) = rootPath theirs.tail.reverse := by
    rw [dropLastSegment_rootPath (segments_reverse.2 ht), List.dropLast_reverse]
  obtain rfl | rfl | hplain := plain_cases hs
  · rw [dotRun_away (.inl rfl), dotRun_dot]
    by_cases hL : L = []
    · rw [if_pos hL, hL, nil_eq_unrooted ht, Meet, if_pos ⟨rfl, rfl, .inl rfl⟩]
      rfl
    · rw [if_neg hL, behindDots_of_ne_nil hL, (h hL).2 x theirs hx ht, meet_on (.inr hL)]
      rfl
  · rw [dotRun_away (.inr rfl), dotRun_dots, hdrop]
    by_cases hL : L = []
    · rw [if_pos hL, hL, nil_eq_unrooted ht.tail, Meet, if_pos ⟨rfl, rfl, .inr rfl⟩]
      rfl
    · rw [if_neg hL, behindDots_of_ne_nil hL, (h hL).2 x theirs.tail hx ht.tail, meet_on (.inr hL)]
      rfl
  · have hfirst : Segments [x, s] := (segments_singleton hx).append (segments_singleton hs)
    have hfits : (⟨some x, theirs, 1⟩ : Bottoms).Fits [s] :=
      ⟨rfl, by simp, by simp, hfirst, ht⟩
    rw [dotRun_second hplain, dotRun_theirs hplain, meet_plain hplain, nextBottoms_plain hplain]
    by_cases hL : L = []
    · rw [hL, rootPath_nil, dotRun_nil, dotRun_nil, unrooted_rootPath]
      exact @relPath_even [s] ⟨some x, theirs, 1⟩ hfirst
        ((segments_reverse.2 ht).append (segments_singleton hs)) (List.cons_ne_nil _ _)
    · exact (h hL).1 _ _ hfits

theorem slashMeets_awayMeets (hne : L ≠ []) (hL : Segments L) : SlashMeets L ∧ AwayMeets L := by
  induction L with
  | nil => exact absurd rfl hne
  | cons s L ih =>
    obtain ⟨hs, hL'⟩ := segments_cons.1 hL
    have hrest := fun h : L ≠ [] => ih h hL'
    exact ⟨slashMeets_cons hs hrest, awayMeets_cons hs hrest⟩

theorem unrooted_of_ne (h : s.head? ≠ some ('/' : Byte)) : unrooted s = s := if_neg h

/-- While the output that was begun without a `'/'` lasts, the loop and the RFC do the same. -/
theorem firstMeets (hL : Segments L) {x : Bytes} (hx : x ≠ []) (hc : Segments (x :: c)) :
    dotRun true (rootPath L) (relPath (x :: c)) =
        unrooted (dotRun false (rootPath L) (relPath (x :: c))) ↔
      Meet .slash ⟨some x, [x], c.length⟩ L := by
  have hpath : ∀ c, relPath (x :: c) ≠ [] ∧ unrooted (relPath (x :: c)) = relPath (x :: c) := by
    intro c
    obtain ⟨e, t, rfl⟩ := List.exists_cons_of_ne_nil hx
    have he : e ≠ '/' := fun h => hc (e :: t) List.mem_cons_self (h ▸ List.mem_cons_self)
    rw [relPath_cons]
    exact ⟨List.cons_ne_nil _ _, unrooted_of_ne fun h => he (Option.some.inj h)⟩
  have hput : ∀ (b : Bool) c s L, Plain s → dotRun b (rootPath (s :: L)) (relPath (x :: c)) =
      dotRun b (rootPath L) (relPath (x :: (c ++ [s]))) := by
    intro b c s L hs
    have happ := @relPath_append (x :: c) [s] (List.cons_ne_nil _ _)
    rw [dotRun_put hs fun e => (hpath c).1 e.2, ← List.cons_append, happ, rootPath_cons,
      rootPath_nil, List.append_nil]
  induction L generalizing c with
  | nil =>
    rw [rootPath_nil, dotRun_nil, dotRun_nil, (hpath c).2]
    exact iff_of_true rfl rfl
  | cons s L ih =>
    obtain ⟨hs, hL'⟩ := segments_cons.1 hL
    have hbehind : ∀ c, Segments (x :: c) →
        (dotRun true (rootPath (behindDots L)) (relPath (x :: c)) =
          unrooted (dotRun false (rootPath (behindDots L)) (relPath (x :: c))) ↔
            Meet .slash ⟨some x, [x], c.length⟩ L) := by
      intro c hc
      by_cases hne : L = []
      · rw [hne, behindDots, if_pos rfl, hput _ _ _ _ plain_nil, hput _ _ _ _ plain_nil,
          rootPath_nil, dotRun_nil, dotRun_nil, (hpath _).2]
        exact iff_of_true rfl rfl
      · rw [behindDots_of_ne_nil hne]
        exact ih hL' hc
    obtain rfl | rfl | hplain := plain_cases hs
    · rw [dotRun_dot, dotRun_dot, hbehind c hc, meet_on (.inl (by decide))]
      rfl
    · rw [dotRun_dots, dotRun_dots, dropLastSegment_relPath hc, meet_on (.inl (by decide))]
      obtain rfl | ⟨c, y, rfl⟩ := List.eq_nil_or_concat' c
      · -- the first segment is gone: from here on the RFC's output has a `'/'` in front
        have hslash := slashMeets_behindDots fun hne => (slashMeets_awayMeets hne hL').1
        exact (hslash _ _ fits_nil).trans meet_behindDots
      · have hdrop : (x :: (c ++ [y])).dropLast = x :: c := by
          rw [← List.cons_append, List.dropLast_concat]
        have hup : Bottoms.up ⟨some x, [x], (c ++ [y]).length⟩ = ⟨some x, [x], c.length⟩ := by
          simp [Bottoms.up, hx]
        have hc' : Segments (x :: c) := hdrop ▸ hc.dropLast
        rw [hdrop, hbehind c hc', ← hup]
        rfl
    · have hc' : Segments (x :: (c ++ [s])) := hc.append (segments_singleton hs)
      have hrest := ih hL' hc'
      rw [List.length_append] at hrest
      rw [hput _ _ _ _ hplain, hput _ _ _ _ hplain, meet_plain hplain, nextBottoms_plain hplain]
      exact hrest

theorem startMeets (hne : L ≠ []) (hL : Segments L) :
    dotRun true (relPath L) [] = unrooted (dotRun false (relPath L) []) ↔
      Meet .start ⟨none, [], 0⟩ L := by
  induction L with
  | nil => exact absurd rfl hne
  | cons s L ih =>
    obtain ⟨hs, hL'⟩ := segments_cons.1 hL
    have hdots : ∀ s, s = lit "." ∨ s = lit ".." →
        (dotRun true (relPath (s :: L)) [] = unrooted (dotRun false (relPath (s :: L)) []) ↔
          Meet .start ⟨none, [], 0⟩ L) := by
      intro s hs
      rw [dotRun_away hs, dotRun_away hs]
      by_cases h : L = []
      · rw [if_pos h, if_pos h, h]
        exact iff_of_true rfl rfl
      · rw [if_neg h, if_neg h, ih h hL']
    obtain rfl | rfl | hplain := plain_cases hs
    · rw [hdots _ (.inl rfl), meet_on (.inl (by decide))]
      rfl
    · rw [hdots _ (.inr rfl), meet_on (.inl (by decide))]
      rfl
    · rw [meet_plain hplain, nextBottoms_plain hplain]
      by_cases hs' : s = []
      · subst hs'
        rw [relPath_cons, List.nil_append]
        by_cases h : L = []
        · rw [h, rootPath_nil, dotRun_nil, dotRun_nil]
          exact iff_of_true rfl rfl
        · exact (slashMeets_awayMeets h hL').1 _ _ fits_nil
      · rw [dotRun_first hplain hs', dotRun_first hplain hs', List.nil_append, if_neg hs']
        have := @firstMeets _ [] hL' _ hs' (segments_singleton hs)
        rw [relPath_cons, rootPath_nil, List.append_nil] at this
        exact this

theorem segments_splitOn {path : Bytes} : Segments (path.splitOn ('/' : Byte)) := by
  induction path with
  | nil => exact segments_singleton List.not_mem_nil
  | cons e path ih =>
    rw [List.splitOn_cons_eq_if_modifyHead]
    split_ifs with he
    · exact segments_cons.2 ⟨List.not_mem_nil, ih⟩
    · obtain ⟨t, L, ht⟩ := List.exists_cons_of_ne_nil (List.splitOn_ne_nil ('/' : Byte) path)
      rw [ht] at ih ⊢
      obtain ⟨htop, hL⟩ := segments_cons.1 ih
      refine segments_cons.2 ⟨?_, hL⟩
      simp only [List.mem_cons, not_or]
      exact ⟨fun h => he (by simp [h]), htop⟩

theorem dotRun_true_iff {path : Bytes} :
    dotRun true path [] = unrooted (Rfc3986.removeDotSegments path) ↔ StaysInStep path := by
  have hsplit : relPath (path.splitOn ('/' : Byte)) = path := List.intercalate_splitOn _
  have := startMeets (List.splitOn_ne_nil _ _) (@segments_splitOn path)
  rwa [hsplit, ← removeLoop_eq_dotRun (.inr (.inr rfl))] at this

/-- A relative path comes out as RFC 3986 says, but for the `'/'` that it has got in front,
exactly if its segments do not keep the loop and the RFC apart. -/
theorem remove_dot_segments_relative_iff (asserts : Bool) (dest codec : Codec) (path : Bytes)
    (hne : path ≠ []) (hrel : path.head? ≠ some ('/' : Byte))
    (ho : (codecCvtAppend asserts .path dest codec path).stop = none) :
    let o := codecCvtAppend asserts .path dest codec path
    (removeDotSegmentsAppend asserts .path dest codec path).Yields
      (unrooted (Rfc3986.removeDotSegments o.text)) ↔ StaysInStep o.text := by
  intro o
  have hrel' : isRelative path = true := decide_eq_true hrel
  have hremove : removeDotSegmentsAppend asserts .path dest codec path = removeDots true o := by
    rw [removeDotSegmentsAppend, if_neg hne, hrel']
  have hstop : (removeDots true o).stop = none ∧
      (removeDots true o).text = (dotLoop true o.text).done := by
    unfold removeDots
    split
    · next e he => exact absurd (he.symm.trans ho) (by simp)
    · exact ⟨rfl, rfl⟩
  have hdone : (dotLoop true o.text).done = dotRun true o.text [] := by
    by_cases htext : o.text = []
    · have hlen := @length_dotLoop true o.text
      rw [htext, List.length_nil, List.length_eq_zero_iff] at hlen
      rw [htext, dotRun_nil, DotState.done, hlen, List.take_nil]
    · exact dotLoop_pair htext
  rw [hremove, Out.Yields, hstop.2, hdone, ← dotRun_true_iff]
  exact and_iff_right hstop.1

theorem remove_dot_segments_relative_up :
    (removeDotSegmentsAppend true .path .urlEncoded .urlDecoded (lit "a/../b c/./d/../e")).Yields
      (unrooted (Rfc3986.removeDotSegments
        (codecCvtAppend true .path .urlEncoded .urlDecoded (lit "a/../b c/./d/../e")).text)) :=
  (remove_dot_segments_relative_iff true .urlEncoded .urlDecoded (lit "a/../b c/./d/../e")
    (by decide) (by decide) (by decide +kernel)).2 (by decide +kernel)

/-- The second `".."` is passed over, and what it should remove comes before what follows. -/
theorem remove_dot_segments_relative_leftover :
    (removeDotSegmentsAppend true .path .asIs .asIs (lit "a/../b/../c")).Yields (lit "b/c") ∧
      unrooted (Rfc3986.removeDotSegments (lit "a/../b/../c")) ≠ lit "b/c" := by
  have hyields : (removeDotSegmentsAppend true .path .asIs .asIs (lit "a/../b/../c")).Yields
      (lit "b/c") := by
    unfold Out.Yields
    decide +kernel
  refine ⟨hyields, fun h => ?_⟩
  have hrun := (@removeDotSegmentsInplace_yields (lit "a/../b/../c") (by decide)).2
  rw [← @removeDotSegmentsAppend_asIs true .path .asIs, hyields.2, ← h] at hrun
  exact absurd (dotRun_true_iff.1 hrun.symm) (by decide +kernel)

end Jkl.Uri
