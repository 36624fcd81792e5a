import Jkl.Uri.DotSegmentsClean

/-! Runs of the loop from one segment of a path to the next. -/
namespace Jkl.Uri

open Cut (find_append find_eq_none rfind_append rfind_eq_none)
open Rfc3986 (firstSegment dropLastSegment)

variable {isRel : Bool} {d o r s x : Bytes} {L A B : List Bytes}

/-! Texts as segments. -/

/-- The segments with a `'/'` between each two. -/
def relPath (L : List Bytes) : Bytes := [('/' : Byte)].intercalate L

/-- The segments with a `'/'` before each. -/
def rootPath (L : List Bytes) : Bytes := L.flatMap fun x => ('/' : Byte) :: x

@[simp] theorem relPath_nil : relPath [] = [] := rfl

@[simp] theorem rootPath_nil : rootPath [] = [] := rfl

theorem rootPath_cons : rootPath (x :: L) = ('/' : Byte) :: (x ++ rootPath L) := rfl

theorem rootPath_ne_nil : rootPath (x :: L) ≠ [] := List.cons_ne_nil _ _

theorem relPath_cons : relPath (x :: L) = x ++ rootPath L := by
  induction L generalizing x with
  | nil => simp [relPath]
  | cons y L ih =>
    have hcons : relPath (x :: y :: L) = x ++ [('/' : Byte)] ++ relPath (y :: L) :=
      List.intercalate_cons_cons
    rw [hcons, ih, rootPath_cons, List.append_assoc, List.singleton_append]

theorem rootPath_append : rootPath (A ++ B) = rootPath A ++ rootPath B := List.flatMap_append

theorem endsSegment_rootPath : EndsSegment (rootPath L) := by
  cases L with
  | nil => exact .inl rfl
  | cons x L => exact .inr ⟨_, rfl⟩

/-- No segment has a `'/'` in it. -/
def Segments (L : List Bytes) : Prop := ∀ x ∈ L, ('/' : Byte) ∉ x

theorem Segments.tail (h : Segments L) : Segments L.tail := fun x hx =>
  h x (List.mem_of_mem_tail hx)

theorem Segments.append (hA : Segments A) (hB : Segments B) : Segments (A ++ B) := by
  intro x hx
  obtain h | h := List.mem_append.1 hx
  · exact hA x h
  · exact hB x h

theorem segments_cons : Segments (x :: L) ↔ ('/' : Byte) ∉ x ∧ Segments L := List.forall_mem_cons

theorem segments_singleton (hs : ('/' : Byte) ∉ s) : Segments [s] :=
  segments_cons.2 ⟨hs, by simp [Segments]⟩

theorem segments_reverse : Segments A.reverse ↔ Segments A := by
  simp [Segments]

theorem dropLastSegment_append_slash (hx : ('/' : Byte) ∉ x) :
    dropLastSegment (o ++ ('/' : Byte) :: x) = o := by
  rw [dropLastSegment, rfind_append hx]

theorem dropLastSegment_rootPath (h : Segments L) :
    dropLastSegment (rootPath L) = rootPath L.dropLast := by
  obtain rfl | ⟨A, x, rfl⟩ := List.eq_nil_or_concat' L
  · rfl
  · have hx : ('/' : Byte) ∉ x := h x (by simp)
    rw [List.dropLast_concat, rootPath_append]
    exact dropLastSegment_append_slash (by simpa using hx)

theorem dropLastSegment_relPath (h : Segments L) :
    dropLastSegment (relPath L) = relPath L.dropLast := by
  cases L with
  | nil => rfl
  | cons x L =>
    obtain rfl | ⟨A, y, rfl⟩ := List.eq_nil_or_concat' L
    · have hx : ('/' : Byte) ∉ x := h x (by simp)
      rw [relPath_cons, rootPath_nil, List.append_nil, dropLastSegment, rfind_eq_none.2 hx]
      rfl
    · have hy : ('/' : Byte) ∉ y := h y (by simp)
      have hlast : (x :: (A ++ [y])).dropLast = x :: A := by
        rw [← List.cons_append, List.dropLast_concat]
      rw [hlast, relPath_cons, relPath_cons, rootPath_append, ← List.append_assoc]
      exact dropLastSegment_append_slash (by simpa using hy)

theorem relPath_inj (hA : Segments A) (hB : Segments B) (hA' : A ≠ []) (hB' : B ≠ []) :
    relPath A = relPath B ↔ A = B := by
  constructor
  · intro h
    have := congrArg (List.splitOn ('/' : Byte)) h
    rwa [relPath, relPath, List.splitOn_intercalate _ hA hA', List.splitOn_intercalate _ hB hB']
      at this
  · exact congrArg relPath

/-! A turn on one segment. -/

/-- A segment that is put out. -/
def Plain (x : Bytes) : Prop := ('/' : Byte) ∉ x ∧ x ≠ lit "." ∧ x ≠ lit ".."

theorem eq_of_startsWith (hd : ('/' : Byte) ∉ d) (hx : ('/' : Byte) ∉ x) (hr : EndsSegment r)
    (h : d ++ [('/' : Byte)] <+: x ++ r) : x = d := by
  obtain ⟨w, hw⟩ := h
  rw [List.append_assoc, List.singleton_append] at hw
  obtain rfl | ⟨r', rfl⟩ := hr
  · rw [List.append_nil] at hw
    exact absurd (hw ▸ by simp) hx
  · have := (find_append hd (b := w)).symm.trans ((congrArg _ hw).trans (find_append hx))
    exact (congrArg Prod.fst (Option.some.inj this)).symm

theorem eq_of_append_eq (hd : ('/' : Byte) ∉ d) (hr : EndsSegment r) (h : x ++ r = d) :
    x = d := by
  obtain rfl | ⟨r', rfl⟩ := hr
  · rwa [List.append_nil] at h
  · exact absurd (h ▸ by simp) hd

theorem firstSegment_append_ends {e : Byte} (hx : ('/' : Byte) ∉ x) (hr : EndsSegment r) :
    firstSegment (e :: (x ++ r)) = e :: x := by
  have hall : ∀ d ∈ x, decide (d = ('/' : Byte)) = false := fun d hd =>
    decide_eq_false fun e => hx (e ▸ hd)
  have hhead : ∀ d, r.head? = some d → decide (d = ('/' : Byte)) = true := by
    intro d hd
    obtain rfl | ⟨r', rfl⟩ := hr
    · cases hd
    · exact decide_eq_true (Option.some.inj hd).symm
  rw [firstSegment, Cut.findFirstOf_eq hall hhead]

theorem noDotsAhead_plain (hx : Plain x) (hr : EndsSegment r) (hne : x ≠ []) :
    NoDotsAhead (x ++ r) := by
  obtain ⟨hmem, hdot, hdots⟩ := hx
  have hdot' : ('/' : Byte) ∉ lit "." := by decide
  have hdots' : ('/' : Byte) ∉ lit ".." := by decide
  obtain ⟨e, t, rfl⟩ := List.exists_cons_of_ne_nil hne
  have he : e ≠ '/' := fun h => hmem (h ▸ List.mem_cons_self)
  constructor
  case here => exact fun h => hdot (eq_of_startsWith (d := lit ".") hdot' hmem hr h)
  case up => exact fun h => hdots (eq_of_startsWith (d := lit "..") hdots' hmem hr h)
  case slashHere => exact fun h => he (List.cons_prefix_cons.1 h).1.symm
  case slashHereEnd => exact fun h => he (List.cons.inj h).1
  case slashUp => exact fun h => he (List.cons_prefix_cons.1 h).1.symm
  case slashUpEnd => exact fun h => he (List.cons.inj h).1
  case dots =>
    intro h
    obtain h | h := h
    · exact hdot (eq_of_append_eq hdot' hr h)
    · exact hdots (eq_of_append_eq hdots' hr h)

theorem noDotsAhead_slash (hx : Plain x) (hr : EndsSegment r) :
    NoDotsAhead (('/' : Byte) :: (x ++ r)) := by
  obtain ⟨hmem, hdot, hdots⟩ := hx
  have hdot' : ('/' : Byte) ∉ lit "." := by decide
  have hdots' : ('/' : Byte) ∉ lit ".." := by decide
  have hne : ('.' : Byte) ≠ '/' := by decide
  constructor
  case here => exact fun h => hne (List.cons_prefix_cons.1 h).1
  case up => exact fun h => hne (List.cons_prefix_cons.1 h).1
  case slashHere =>
    exact fun h => hdot (eq_of_startsWith hdot' hmem hr (List.cons_prefix_cons.1 h).2)
  case slashHereEnd => exact fun h => hdot (eq_of_append_eq hdot' hr (List.cons.inj h).2)
  case slashUp =>
    exact fun h => hdots (eq_of_startsWith hdots' hmem hr (List.cons_prefix_cons.1 h).2)
  case slashUpEnd => exact fun h => hdots (eq_of_append_eq hdots' hr (List.cons.inj h).2)
  case dots =>
    intro h
    obtain h | h := h
    · exact hne (List.cons.inj h).1.symm
    · exact hne (List.cons.inj h).1.symm

theorem dotStep_ahead {i : Bytes} (h : NoDotsAhead i) : dotStep isRel i o =
    if isRel ∧ o = [] ∧ i.head? = some ('/' : Byte) then
      ((throughSlash i.tail).2, (throughSlash i.tail).1)
    else (i.drop (firstSegment i).length, o ++ firstSegment i) := by
  rw [dotStep, if_neg h.here, if_neg h.up, if_neg h.slashHere, if_neg h.slashHereEnd,
    if_neg h.slashUp, if_neg h.slashUpEnd, if_neg h.dots]

theorem firstSegment_plain (hx : Plain x) (hr : EndsSegment r) (hne : x ≠ []) :
    firstSegment (x ++ r) = x := by
  obtain ⟨e, t, rfl⟩ := List.exists_cons_of_ne_nil hne
  exact firstSegment_append_ends (fun h => hx.1 (List.mem_cons_of_mem e h)) hr

theorem head?_plain (hx : Plain x) (hne : x ≠ []) : (x ++ r).head? ≠ some ('/' : Byte) := by
  obtain ⟨e, t, rfl⟩ := List.exists_cons_of_ne_nil hne
  exact fun h => hx.1 (Option.some.inj h ▸ List.mem_cons_self)

theorem dotStep_plain (hx : Plain x) (hr : EndsSegment r) (hne : x ≠ []) :
    dotStep isRel (x ++ r) o = (r, o ++ x) := by
  rw [dotStep_ahead (noDotsAhead_plain hx hr hne), if_neg fun h => head?_plain hx hne h.2.2,
    firstSegment_plain hx hr hne, List.drop_left]

theorem dotStep_slash (hx : Plain x) (hr : EndsSegment r) :
    dotStep isRel (('/' : Byte) :: (x ++ r)) o =
      if isRel ∧ o = [] then ((throughSlash (x ++ r)).2, (throughSlash (x ++ r)).1)
      else (r, o ++ ('/' : Byte) :: x) := by
  have hdrop : (('/' : Byte) :: (x ++ r)).drop (('/' : Byte) :: x).length = r := by simp
  rw [dotStep_ahead (noDotsAhead_slash hx hr), firstSegment_append_ends hx.1 hr, hdrop]
  simp

/-! Runs, segment by segment. -/

/-- What follows a dot segment behind a `'/'`; the last one leaves its slash. -/
def behindDots (L : List Bytes) : List Bytes := if L = [] then [[]] else L

theorem dotStep_dot :
    dotStep isRel (rootPath (lit "." :: L)) o = (rootPath (behindDots L), o) := by
  cases L with
  | nil => simp [dotStep, behindDots, rootPath, lit]
  | cons t L => simp [dotStep, behindDots, rootPath, lit]

theorem dotStep_dots : dotStep isRel (rootPath (lit ".." :: L)) o =
    (rootPath (behindDots L), dropLastSegment o) := by
  cases L with
  | nil => simp [dotStep, behindDots, rootPath, lit]
  | cons t L => simp [dotStep, behindDots, rootPath, lit]

theorem dotRun_dot :
    dotRun isRel (rootPath (lit "." :: L)) o = dotRun isRel (rootPath (behindDots L)) o := by
  rw [dotRun_cons rootPath_ne_nil, dotStep_dot]

theorem dotRun_dots : dotRun isRel (rootPath (lit ".." :: L)) o =
    dotRun isRel (rootPath (behindDots L)) (dropLastSegment o) := by
  rw [dotRun_cons rootPath_ne_nil, dotStep_dots]

theorem dotRun_put (hx : Plain x) (ho : ¬(isRel = true ∧ o = [])) :
    dotRun isRel (rootPath (x :: L)) o = dotRun isRel (rootPath L) (o ++ ('/' : Byte) :: x) := by
  rw [rootPath_cons, dotRun_cons (List.cons_ne_nil _ _), dotStep_slash hx endsSegment_rootPath,
    if_neg ho]

/-- The first segment of a relative path's output takes its `'/'` along. -/
theorem dotRun_skip (hx : Plain x) : dotRun true (rootPath (x :: L)) [] =
    if L = [] then x else dotRun true (relPath L) (x ++ [('/' : Byte)]) := by
  rw [rootPath_cons, dotRun_cons (List.cons_ne_nil _ _), dotStep_slash hx endsSegment_rootPath,
    if_pos ⟨rfl, rfl⟩]
  cases L with
  | nil =>
    rw [rootPath_nil, List.append_nil, throughSlash, find_eq_none.2 hx.1, if_pos rfl]
    exact dotRun_nil
  | cons t L =>
    rw [rootPath_cons, throughSlash, find_append hx.1, if_neg (List.cons_ne_nil t L), relPath_cons]

/-- Away from a `'/'`, dots are passed over, and the last ones empty the output. -/
theorem dotStep_away (hs : s = lit "." ∨ s = lit "..") : dotStep isRel (relPath (s :: L)) o =
    if L = [] then ([], []) else (relPath L, o) := by
  cases L with
  | nil =>
    obtain rfl | rfl := hs
    · simp [dotStep, relPath, lit]
    · simp [dotStep, relPath, lit]
  | cons t L =>
    rw [if_neg (List.cons_ne_nil t L), relPath_cons, rootPath_cons, relPath_cons]
    obtain rfl | rfl := hs
    · simp [dotStep, lit]
    · simp [dotStep, lit]

theorem dots_ne_nil (hs : s = lit "." ∨ s = lit "..") : relPath (s :: L) ≠ [] := by
  rw [relPath_cons]
  obtain rfl | rfl := hs
  · exact List.cons_ne_nil _ _
  · exact List.cons_ne_nil _ _

theorem dotRun_away (hs : s = lit "." ∨ s = lit "..") : dotRun isRel (relPath (s :: L)) o =
    if L = [] then [] else dotRun isRel (relPath L) o := by
  rw [dotRun_cons (dots_ne_nil hs), dotStep_away hs]
  split_ifs
  · exact dotRun_nil
  · rfl

theorem dotRun_first (hx : Plain x) (hne : x ≠ []) :
    dotRun isRel (relPath (x :: L)) o = dotRun isRel (rootPath L) (o ++ x) := by
  have hne' : x ++ rootPath L ≠ [] := by simp [hne]
  rw [relPath_cons, dotRun_cons hne', dotStep_plain hx endsSegment_rootPath hne]

end Jkl.Uri
