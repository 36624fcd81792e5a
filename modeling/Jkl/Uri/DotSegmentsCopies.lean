import Jkl.Uri.DotSegmentsRelative
import Mathlib.Order.CompletePartialOrder
import Mathlib.Order.Interval.Set.Disjoint

/-! The copies of the loop. `string_view::copy` is `char_traits::copy`, which asks that the bytes
it writes be none of those it reads. -/
namespace Jkl.Uri

open Loop (Turn)
open Rfc3986 (firstSegment dropLastSegment)

variable {isRel : Bool} {s s' : DotState} {i o x : Bytes} {g : ℕ} {L : List Bytes}

/-- The arguments of a copy, counted from `out`. -/
structure SegmentCopy where
  dest : ℕ
  src : ℕ
  count : ℕ
deriving DecidableEq

/-- The ranges have no byte in common. -/
def SegmentCopy.Apart (c : SegmentCopy) : Prop :=
  Disjoint (Set.Ico c.dest (c.dest + c.count)) (Set.Ico c.src (c.src + c.count))

instance : DecidablePred NoDotsAhead := fun i =>
  decidable_of_iff (¬lit "./" <+: i ∧ ¬lit "../" <+: i ∧ ¬lit "/./" <+: i ∧ i ≠ lit "/." ∧
      ¬lit "/../" <+: i ∧ i ≠ lit "/.." ∧ ¬(i = lit "." ∨ i = lit ".."))
    ⟨fun ⟨a, b, c, d, e, f, g⟩ => ⟨a, b, c, d, e, f, g⟩,
      fun ⟨a, b, c, d, e, f, g⟩ => ⟨a, b, c, d, e, f, g⟩⟩

/-- The copy that the turn at `s` makes. Only the last branch of the body makes one, and only
where output does not end right before what it moves. -/
def segmentCopy (isRel : Bool) (s : DotState) : Option SegmentCopy :=
  let i := s.rest
  let pos := if isRel ∧ s.op = 0 ∧ i.head? = some ('/' : Byte) then 1 else 0
  if NoDotsAhead i ∧ (pos ≠ 0 ∨ s.op ≠ s.ip) then
    some ⟨s.op, s.ip + pos, min ((findSlash i).getD i.length) (i.length - pos)⟩
  else none

/-- Every copy of the loop entered on the buffer meets the precondition. -/
def CopiesApart (isRel : Bool) (buf : Bytes) : Prop :=
  ∀ s, Loop.Reaches (dotTurn isRel) ⟨buf, 0, 0⟩ s → ∀ c, segmentCopy isRel s = some c → c.Apart

/-- What becomes of a state in a turn that copies. -/
theorem dotBody_of_copy {c : SegmentCopy} (h : segmentCopy isRel s = some c) :
    dotBody isRel s =
      .next ⟨Copy.moveLeft s.buf c.dest c.src c.count, c.dest + c.count, c.src + c.count⟩ := by
  unfold segmentCopy at h
  dsimp only at h
  have hmove : moveSegment isRel s =
      ⟨Copy.moveLeft s.buf c.dest c.src c.count, c.dest + c.count, c.src + c.count⟩ := by
    unfold moveSegment
    dsimp only
    generalize (if isRel ∧ s.op = 0 ∧ s.rest.head? = some ('/' : Byte) then 1 else 0) = pos at h ⊢
    by_cases hcopy : NoDotsAhead s.rest ∧ (pos ≠ 0 ∨ s.op ≠ s.ip)
    · rw [if_pos hcopy] at h
      rw [if_pos hcopy.2, ← Option.some.inj h]
      simp only [DotState.mk.injEq, true_and]
      omega
    · rw [if_neg hcopy] at h
      cases h
  have hahead : NoDotsAhead s.rest := by
    by_contra hdots
    rw [if_neg fun hcopy => hdots hcopy.1] at h
    cases h
  rw [← hmove]
  unfold dotBody
  dsimp only
  rw [if_neg hahead.here, if_neg hahead.up, if_neg hahead.slashHere, if_neg hahead.slashHereEnd,
    if_neg hahead.slashUp, if_neg hahead.slashUpEnd, if_neg hahead.dots]

/-! One turn, on what is unread and what has been put out. `g` bytes have been removed, which is
how far `op` is behind `in`. -/

/-- The copy of a turn is no longer than it reaches back. -/
def TurnFits (isRel : Bool) (g : ℕ) (i o : Bytes) : Prop :=
  NoDotsAhead i →
    if isRel ∧ o = [] ∧ i.head? = some ('/' : Byte) then (throughSlash i.tail).1.length ≤ g + 1
    else g = 0 ∨ (firstSegment i).length ≤ g

/-- The state `s` of the loop has `i` to read, and has put out `o` and removed `g` bytes. -/
structure DotState.Has (s : DotState) (i o : Bytes) (g : ℕ) : Prop where
  rest : s.rest = i
  done : s.done = o
  ip : s.ip = s.op + g
  le : s.ip ≤ s.buf.length

theorem apart_iff {d e n : ℕ} (hd : d ≤ e) : SegmentCopy.Apart ⟨d, e, n⟩ ↔ n ≤ e - d := by
  unfold SegmentCopy.Apart
  rw [Set.Ico_disjoint_Ico]
  dsimp only
  omega

theorem turnFits_iff (h : s.Has i o g) (hi : i ≠ []) :
    (∀ c, segmentCopy isRel s = some c → c.Apart) ↔ TurnFits isRel g i o := by
  obtain ⟨rfl, rfl, hip, hle⟩ := h
  unfold segmentCopy TurnFits
  simp only [s.done_eq_nil hi]
  by_cases hahead : NoDotsAhead s.rest
  · simp only [hahead, true_and, forall_const]
    by_cases hskip : isRel = true ∧ s.op = 0 ∧ s.rest.head? = some ('/' : Byte)
    · obtain ⟨t, ht⟩ : ∃ t, s.rest = ('/' : Byte) :: t := by
        cases hr : s.rest with
        | nil => exact absurd hr hi
        | cons e t =>
          have hhead := hskip.2.2
          rw [hr] at hhead
          exact ⟨t, congrArg (· :: t) (Option.some.inj hhead)⟩
      have hn := @throughSlash_eq t ('/' : Byte) _ rfl
      simp only [if_pos hskip, ne_eq, one_ne_zero, not_false_eq_true, true_or, if_true,
        Option.some.injEq, forall_eq']
      rw [apart_iff (by omega), ht, List.tail_cons, hn, List.length_take, List.length_cons]
      omega
    · have hseg := congrArg List.length (@firstSegment_eq s.rest).1
      obtain ⟨-, hq⟩ := findSlash_le hi
      rw [List.length_take, Nat.min_eq_left hq] at hseg
      simp only [if_neg hskip, ne_eq, not_true_eq_false, false_or, Nat.add_zero, Nat.sub_zero]
      by_cases hgap : s.op = s.ip
      · simp only [hgap, not_true_eq_false, if_false, reduceCtorEq, false_imp_iff, implies_true,
          true_iff]
        omega
      · simp only [hgap, not_false_eq_true, if_true, Option.some.injEq, forall_eq']
        rw [apart_iff (by omega), Nat.min_eq_left hq, hseg]
        omega
  · simp [hahead]

/-- The copies from the state `s` on meet the precondition. -/
def CopiesApartFrom (isRel : Bool) (s : DotState) : Prop :=
  ∀ s', Loop.Reaches (dotTurn isRel) s s' → ∀ c, segmentCopy isRel s' = some c → c.Apart

theorem copiesApartFrom_iff : CopiesApartFrom isRel s ↔
    (∀ c, segmentCopy isRel s = some c → c.Apart) ∧
      ∀ s', dotTurn isRel s = .next s' → CopiesApartFrom isRel s' := by
  constructor
  · intro h
    exact ⟨h s .refl, fun s' hn t ht => h t (.head hn ht)⟩
  · rintro ⟨hhere, hnext⟩ t ht
    obtain rfl | ⟨s', hn, hreach⟩ := Relation.ReflTransGen.cases_head ht
    · exact hhere
    · exact hnext s' hn t hreach

variable {i' o' : Bytes} {P : Prop}

theorem DotState.Has.length (h : s.Has i o g) :
    s.op = o.length ∧ s.buf.length = o.length + g + i.length := by
  obtain ⟨rfl, rfl, hip, hle⟩ := h
  simp only [DotState.rest, DotState.done, List.length_drop, List.length_take]
  omega

/-- A turn of the loop, for what holds of the copies from then on. -/
theorem copiesApartFrom_step (h : s.Has i o g) (hi : i ≠ []) (hstep : dotStep isRel i o = (i', o'))
    (hnil : i' = [] → P)
    (hnext : ∀ s' g', s'.Has i' o' g' →
      o'.length + g' + i'.length = o.length + g + i.length → i' ≠ [] →
      (CopiesApartFrom isRel s' ↔ P)) :
    CopiesApartFrom isRel s ↔ TurnFits isRel g i o ∧ P := by
  rw [copiesApartFrom_iff, turnFits_iff h hi]
  apply and_congr_right'
  have hop : s.op ≤ s.ip := by
    rw [h.ip]
    omega
  have hlen := h.length.2
  obtain ⟨rfl, rfl, hip, hle⟩ := h
  obtain ⟨t, ht, hop', hne, hpair⟩ | ⟨t, ht, -, -, hpair⟩ := @dotTurn_pair isRel s hop hi
  · have hlen' := length_of_dotTurn (.inl ht)
    obtain ⟨rfl, rfl⟩ := Prod.mk.inj (hpair.symm.trans hstep)
    have hip' := t.ip_lt hne
    have hhas : t.Has t.rest t.done (t.ip - t.op) := ⟨rfl, rfl, by omega, hip'.le⟩
    rw [← hnext t _ hhas (by rw [← hhas.length.2, hlen', hlen]) hne]
    simp only [ht, Turn.next.injEq, forall_eq']
  · obtain ⟨rfl, rfl⟩ := Prod.mk.inj (hpair.symm.trans hstep)
    simp only [ht, reduceCtorEq, false_imp_iff, implies_true, true_iff]
    exact hnil rfl

/-! The segments of a path. -/

/-- The segments that are put out fit behind what has been removed before them: none is longer
than the `g` bytes removed so far, with the `'/'` it takes along, unless nothing has been. `o` is
what is kept of the segments before, and `away` says that the `'/'` before the next one is in it,
or that there is none. The first segment of a relative path takes the `'/'` behind it instead of
the one before it. -/
def SegmentsFit (isRel : Bool) : (away : Bool) → (o : Bytes) → (g : ℕ) → List Bytes → Prop
  | _, _, _, [] => True
  | true, o, g, x :: L =>
    if x = lit "." then SegmentsFit isRel true o (g + 2) L
    else if x = lit ".." then SegmentsFit isRel true o (g + 3) L
    else (g = 0 ∨ x.length ≤ g) ∧ SegmentsFit isRel false (o ++ x) g L
  | false, o, g, x :: L =>
    if x = lit "." then SegmentsFit isRel false o (g + 2) L
    else if x = lit ".." then
      SegmentsFit isRel false (dropLastSegment o)
        (g + 3 + (o.length - (dropLastSegment o).length)) L
    else if isRel ∧ o = [] then
      (if L = [] then x.length else x.length + 1) ≤ g + 1 ∧
        SegmentsFit isRel true (x ++ [('/' : Byte)]) (g + 1) L
    else (g = 0 ∨ x.length + 1 ≤ g) ∧ SegmentsFit isRel false (o ++ ('/' : Byte) :: x) g L

instance decidableSegmentsFit : ∀ away o g L, Decidable (SegmentsFit isRel away o g L)
  | _, _, _, [] => inferInstanceAs (Decidable True)
  | true, o, g, x :: L =>
    have := decidableSegmentsFit true o (g + 2) L
    have := decidableSegmentsFit true o (g + 3) L
    have := decidableSegmentsFit false (o ++ x) g L
    inferInstanceAs (Decidable (if x = lit "." then SegmentsFit isRel true o (g + 2) L
      else if x = lit ".." then SegmentsFit isRel true o (g + 3) L
      else (g = 0 ∨ x.length ≤ g) ∧ SegmentsFit isRel false (o ++ x) g L))
  | false, o, g, x :: L =>
    have := decidableSegmentsFit false o (g + 2) L
    have := decidableSegmentsFit false (dropLastSegment o)
      (g + 3 + (o.length - (dropLastSegment o).length)) L
    have := decidableSegmentsFit true (x ++ [('/' : Byte)]) (g + 1) L
    have := decidableSegmentsFit false (o ++ ('/' : Byte) :: x) g L
    inferInstanceAs (Decidable (if x = lit "." then SegmentsFit isRel false o (g + 2) L
      else if x = lit ".." then SegmentsFit isRel false (dropLastSegment o)
        (g + 3 + (o.length - (dropLastSegment o).length)) L
      else if isRel ∧ o = [] then
        (if L = [] then x.length else x.length + 1) ≤ g + 1 ∧
          SegmentsFit isRel true (x ++ [('/' : Byte)]) (g + 1) L
      else (g = 0 ∨ x.length + 1 ≤ g) ∧ SegmentsFit isRel false (o ++ ('/' : Byte) :: x) g L))

example : SegmentsFit false true [] 0 [[], lit "abc", lit "..", lit "de"] := by decide
example : ¬SegmentsFit false true [] 0 [[], lit "a", lit "..", lit "bcdefg"] := by decide

theorem turnFits_of_dots (h : ¬NoDotsAhead i) : TurnFits isRel g i o := fun hn => absurd hn h

theorem length_dropLastSegment_le : (dropLastSegment o).length ≤ o.length := by
  unfold dropLastSegment
  cases h : Cut.rfind ('/' : Byte) o with
  | none => exact Nat.zero_le _
  | some p =>
    have := congrArg List.length (Cut.rfind_eq_some.1 h).1
    rw [List.length_append] at this
    dsimp only
    omega

/-- The slash that the last dots of a path leave always fits. -/
theorem copiesApartFrom_slash (h : s.Has (rootPath [[]]) o g) (hg : 0 < g) :
    CopiesApartFrom isRel s := by
  have hplain : Plain [] := plain_nil
  have hstep : dotStep isRel (rootPath [[]]) o =
      ([], if isRel ∧ o = [] then [] else o ++ [('/' : Byte)]) := by
    rw [rootPath_cons, dotStep_slash hplain endsSegment_rootPath]
    split_ifs
    · rfl
    · rfl
  refine (copiesApartFrom_step h rootPath_ne_nil hstep (P := True) (fun _ => trivial)
    (fun _ _ _ _ hne => absurd rfl hne)).2 ⟨?_, trivial⟩
  intro _
  split_ifs
  · exact Nat.zero_le _
  · exact .inr hg

theorem throughSlash_rootPath (hx : ('/' : Byte) ∉ x) :
    throughSlash (x ++ rootPath L) =
      if L = [] then (x, []) else (x ++ [('/' : Byte)], relPath L) := by
  cases L with
  | nil => rw [rootPath_nil, List.append_nil, throughSlash, Cut.find_eq_none.2 hx, if_pos rfl]
  | cons t L =>
    rw [rootPath_cons, throughSlash, Cut.find_append hx, if_neg (List.cons_ne_nil t L),
      relPath_cons]

theorem turnFits_slash (hx : Plain x) : TurnFits isRel g (rootPath (x :: L)) o ↔
    if isRel ∧ o = [] then (if L = [] then x.length else x.length + 1) ≤ g + 1
    else g = 0 ∨ x.length + 1 ≤ g := by
  have hahead : NoDotsAhead (rootPath (x :: L)) := noDotsAhead_slash hx endsSegment_rootPath
  have hthrough : (throughSlash (x ++ rootPath L)).1.length =
      if L = [] then x.length else x.length + 1 := by
    rw [throughSlash_rootPath hx.1]
    split_ifs
    · rfl
    · simp
  simp only [TurnFits, hahead, forall_const]
  rw [rootPath_cons, List.tail_cons, List.head?_cons, hthrough,
    firstSegment_append_ends hx.1 endsSegment_rootPath, List.length_cons]
  simp

theorem turnFits_plain (hx : Plain x) (hne : x ≠ []) :
    TurnFits isRel g (relPath (x :: L)) o ↔ g = 0 ∨ x.length ≤ g := by
  rw [relPath_cons]
  have hahead := noDotsAhead_plain hx (@endsSegment_rootPath L) hne
  simp only [TurnFits, hahead, forall_const]
  rw [if_neg fun h => head?_plain hx hne h.2.2, firstSegment_plain hx endsSegment_rootPath hne]

theorem dotsAhead_slash (hx : x = lit "." ∨ x = lit "..") :
    ¬NoDotsAhead (rootPath (x :: L)) := by
  intro h
  cases L with
  | nil =>
    obtain rfl | rfl := hx
    · exact h.slashHereEnd rfl
    · exact h.slashUpEnd rfl
  | cons t L =>
    obtain rfl | rfl := hx
    · exact h.slashHere ⟨_, rfl⟩
    · exact h.slashUp ⟨_, rfl⟩

theorem dotsAhead_away (hx : x = lit "." ∨ x = lit "..") : ¬NoDotsAhead (relPath (x :: L)) := by
  intro h
  rw [relPath_cons] at h
  cases L with
  | nil => exact h.dots (by simpa using hx)
  | cons t L =>
    obtain rfl | rfl := hx
    · exact h.here ⟨_, rfl⟩
    · exact h.up ⟨_, rfl⟩

theorem segmentsFit_of_nil (h : relPath L = []) : SegmentsFit isRel true o g L := by
  cases L with
  | nil => trivial
  | cons x L =>
    rw [relPath_cons, List.append_eq_nil_iff] at h
    obtain ⟨rfl, hL⟩ := h
    cases L with
    | nil => exact ⟨.inr (Nat.zero_le g), trivial⟩
    | cons t L => exact absurd hL rootPath_ne_nil

theorem segmentsFit_of_rootPath_nil (h : rootPath L = []) : SegmentsFit isRel false o g L := by
  cases L with
  | nil => trivial
  | cons t L => exact absurd h rootPath_ne_nil

theorem length_rootPath_cons : (rootPath (x :: L)).length = x.length + 1 + (rootPath L).length := by
  rw [rootPath_cons, List.length_cons, List.length_append]
  omega

/-- A path without its first slash. -/
theorem length_relPath (h : L ≠ []) : (rootPath L).length = (relPath L).length + 1 := by
  obtain ⟨y, M, rfl⟩ := List.exists_cons_of_ne_nil h
  rw [rootPath_cons, relPath_cons, List.length_cons]

/-- From a state that has the segments to read, at a `'/'`. -/
def SlashTracks (isRel : Bool) (L : List Bytes) : Prop :=
  ∀ s o g, s.Has (rootPath L) o g → L ≠ [] →
    (CopiesApartFrom isRel s ↔ SegmentsFit isRel false o g L)

/-- The same away from a `'/'`. -/
def AwayTracks (isRel : Bool) (L : List Bytes) : Prop :=
  ∀ s o g, s.Has (relPath L) o g → relPath L ≠ [] →
    (CopiesApartFrom isRel s ↔ SegmentsFit isRel true o g L)

theorem rootPath_behindDots_ne_nil : rootPath (behindDots L) ≠ [] := by
  unfold behindDots
  cases L with
  | nil => exact rootPath_ne_nil
  | cons t L => exact rootPath_ne_nil

/-- Dots at a `'/'`. Some bytes have then been removed, so that the slash of the last ones fits. -/
theorem slashTracks_dots (ih : SlashTracks isRel L) (hx : x = lit "." ∨ x = lit "..")
    (h : s.Has (rootPath (x :: L)) o g)
    (hstep : dotStep isRel (rootPath (x :: L)) o = (rootPath (behindDots L), o'))
    (ho : o'.length ≤ o.length) {g' : ℕ} (hg : o'.length + g' = o.length + g + x.length + 1) :
    CopiesApartFrom isRel s ↔ SegmentsFit isRel false o' g' L := by
  have hfit := @turnFits_of_dots isRel _ o g (@dotsAhead_slash x L hx)
  have hlen := @length_rootPath_cons x L
  have hpos : 0 < x.length := by
    obtain rfl | rfl := hx
    · exact Nat.one_pos
    · exact Nat.two_pos
  refine (copiesApartFrom_step h rootPath_ne_nil hstep
    (fun hnil => absurd hnil rootPath_behindDots_ne_nil) ?_).trans (and_iff_right hfit)
  intro t k ht hsum _
  by_cases hL : L = []
  · subst hL
    rw [show (rootPath (behindDots [])).length = 1 from rfl] at hsum
    rw [rootPath_nil, List.length_nil] at hlen
    exact iff_of_true (copiesApartFrom_slash ht (by omega)) trivial
  · rw [behindDots, if_neg hL] at ht hsum
    obtain rfl : k = g' := by omega
    exact ih t o' k ht hL

theorem slashTracks_cons (hx : ('/' : Byte) ∉ x) (ihs : SlashTracks isRel L)
    (iha : AwayTracks isRel L) : SlashTracks isRel (x :: L) := by
  intro s o g h _
  have hlen := @length_rootPath_cons x L
  obtain rfl | rfl | hplain := plain_cases hx
  · rw [SegmentsFit, if_pos rfl]
    exact slashTracks_dots ihs (.inl rfl) h dotStep_dot le_rfl rfl
  · have hle := @length_dropLastSegment_le o
    have hdots : lit ".." ≠ lit "." := by decide
    rw [SegmentsFit, if_neg hdots, if_pos rfl]
    refine slashTracks_dots ihs (.inr rfl) h dotStep_dots hle ?_
    rw [show (lit "..").length = 2 from rfl]
    omega
  · have hstep := @dotStep_slash isRel o (rootPath L) x hplain endsSegment_rootPath
    have hfit := @turnFits_slash isRel o x g L hplain
    rw [SegmentsFit, if_neg hplain.2.1, if_neg hplain.2.2]
    rw [← rootPath_cons] at hstep
    by_cases hskip : isRel = true ∧ o = []
    · rw [if_pos hskip] at hstep hfit ⊢
      rw [throughSlash_rootPath hplain.1] at hstep
      rw [← hfit]
      by_cases hL : L = []
      · rw [if_pos hL] at hstep
        subst hL
        exact copiesApartFrom_step h rootPath_ne_nil hstep (fun _ => trivial)
          (fun _ _ _ _ hne => absurd rfl hne)
      · rw [if_neg hL] at hstep
        refine copiesApartFrom_step h rootPath_ne_nil hstep segmentsFit_of_nil ?_
        intro t k ht hsum hne
        have hrel := length_relPath hL
        simp only [List.length_append, List.length_singleton, hskip.2, List.length_nil] at hsum
        obtain rfl : k = g + 1 := by omega
        exact iha t _ _ ht hne
    · rw [if_neg hskip] at hstep hfit ⊢
      rw [← hfit]
      refine copiesApartFrom_step h rootPath_ne_nil hstep segmentsFit_of_rootPath_nil ?_
      intro t k ht hsum hne
      rw [List.length_append, List.length_cons] at hsum
      obtain rfl : k = g := by omega
      exact ihs t _ _ ht fun hL => hne (hL ▸ rootPath_nil)

/-- Away from a `'/'`, with the next segment in front. -/
theorem awayTracks_cons (hx : ('/' : Byte) ∉ x) (ihs : SlashTracks isRel L)
    (iha : AwayTracks isRel L) : AwayTracks isRel (x :: L) := by
  intro s o g h hne
  have hlen : (relPath (x :: L)).length = x.length + (rootPath L).length := by
    rw [relPath_cons, List.length_append]
  have hdots : x = lit "." ∨ x = lit ".." → (CopiesApartFrom isRel s ↔
      SegmentsFit isRel true o (g + x.length + 1) L) := by
    intro hx
    have hfit := @turnFits_of_dots isRel _ o g (@dotsAhead_away x L hx)
    have hstep := @dotStep_away isRel o x L hx
    by_cases hL : L = []
    · rw [if_pos hL] at hstep
      subst hL
      exact (copiesApartFrom_step h hne hstep (P := True) (fun _ => trivial)
        (fun _ _ _ _ hne => absurd rfl hne)).trans (and_iff_right hfit)
    · rw [if_neg hL] at hstep
      refine (copiesApartFrom_step h hne hstep segmentsFit_of_nil ?_).trans (and_iff_right hfit)
      intro t k ht hsum hne
      have hrel := length_relPath hL
      obtain rfl : k = g + x.length + 1 := by omega
      exact iha t _ _ ht hne
  obtain rfl | rfl | hplain := plain_cases hx
  · rw [SegmentsFit, if_pos rfl]
    exact hdots (.inl rfl)
  · have hne' : lit ".." ≠ lit "." := by decide
    rw [SegmentsFit, if_neg hne', if_pos rfl]
    exact hdots (.inr rfl)
  · rw [SegmentsFit, if_neg hplain.2.1, if_neg hplain.2.2]
    by_cases hx' : x = []
    · subst hx'
      rw [relPath_cons, List.nil_append] at h hne
      rw [List.append_nil, List.length_nil, and_iff_right (.inr (Nat.zero_le g))]
      exact ihs s o g h fun hL => hne (hL ▸ rootPath_nil)
    · have hstep : dotStep isRel (relPath (x :: L)) o = (rootPath L, o ++ x) := by
        rw [relPath_cons, dotStep_plain hplain endsSegment_rootPath hx']
      rw [← @turnFits_plain isRel o x g L hplain hx']
      refine copiesApartFrom_step h hne hstep segmentsFit_of_rootPath_nil ?_
      intro t k ht hsum hne
      rw [List.length_append] at hsum
      obtain rfl : k = g := by omega
      exact ihs t _ _ ht fun hL => hne (hL ▸ rootPath_nil)

theorem tracks (hL : Segments L) : SlashTracks isRel L ∧ AwayTracks isRel L := by
  induction L with
  | nil => exact ⟨fun _ _ _ _ hne => absurd rfl hne, fun _ _ _ _ hne => absurd rfl hne⟩
  | cons x L ih =>
    obtain ⟨hx, hL'⟩ := segments_cons.1 hL
    obtain ⟨ihs, iha⟩ := ih hL'
    exact ⟨slashTracks_cons hx ihs iha, awayTracks_cons hx ihs iha⟩

theorem copiesApart_iff (isRel : Bool) (buf : Bytes) :
    CopiesApart isRel buf ↔ SegmentsFit isRel true [] 0 (buf.splitOn ('/' : Byte)) := by
  have hsplit : relPath (buf.splitOn ('/' : Byte)) = buf := List.intercalate_splitOn _
  by_cases hne : buf = []
  · subst hne
    refine iff_of_true ?_ ⟨.inl rfl, trivial⟩
    have hnext : ∀ s', dotTurn isRel ⟨[], 0, 0⟩ ≠ .next s' := by
      intro s' hn
      rw [dotTurn, dotBody_nil rfl] at hn
      cases hn
    refine copiesApartFrom_iff.2 ⟨fun c hc => ?_, fun s' hn => absurd hn (hnext s')⟩
    simp [segmentCopy, DotState.rest] at hc
  · have hhas : DotState.Has ⟨buf, 0, 0⟩ (relPath (buf.splitOn ('/' : Byte))) [] 0 :=
      ⟨hsplit.symm, rfl, rfl, Nat.zero_le _⟩
    exact (tracks segments_splitOn).2 _ _ _ hhas (by rwa [hsplit])

/-- What `uri_remove_dot_segments_append` has in its buffer before the loop: the path that is there
already, or the path as `write<DestCodec>` puts it there, unless that fails. -/
def dotInput (asserts sameInOut : Bool) (dest codec : Codec) (path : Bytes) : Option Bytes :=
  let o := codecCvtAppend asserts .path dest codec path
  if path = [] then none
  else if sameInOut then some path
  else if o.stop = none then some o.text
  else none

/-- The copies of `uri_remove_dot_segments_append` meet the precondition of `char_traits::copy`
exactly if the segments that are put out fit behind what has been removed. -/
theorem remove_dot_segments_copies_iff (asserts sameInOut : Bool) (dest codec : Codec)
    (path : Bytes) :
    (∀ i ∈ dotInput asserts sameInOut dest codec path, CopiesApart (isRelative path) i) ↔
      ∀ i ∈ dotInput asserts sameInOut dest codec path,
        SegmentsFit (isRelative path) true [] 0 (i.splitOn ('/' : Byte)) :=
  forall₂_congr fun i _ => copiesApart_iff (isRelative path) i

/-- Two bytes have been removed when four are moved. -/
theorem not_copiesApart_dot : ¬∀ i ∈ dotInput false true .asIs .asIs (lit "/./abc"),
    CopiesApart (isRelative (lit "/./abc")) i := by
  intro hall
  have h := hall (lit "/./abc") rfl
  rw [show isRelative (lit "/./abc") = false from rfl] at h
  have hreach : Loop.Reaches (dotTurn false) ⟨lit "/./abc", 0, 0⟩ ⟨lit "/./abc", 0, 2⟩ :=
    .single rfl
  have happart := h _ hreach ⟨0, 2, 4⟩ (by decide)
  rw [apart_iff (by omega)] at happart
  omega

end Jkl.Uri
