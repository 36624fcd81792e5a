import Jkl.Uri.DotSegmentsBuffers

/-! No dot segment is left behind, on no path, and what comes out goes in and comes out again. -/
namespace Jkl.Uri

open Rfc3986 (firstSegment dropLastSegment firstSegment_append)
open Cut (find find_eq_none find_eq_some rfind rfind_eq_some)

variable {isRel : Bool} {a b d i o r x : Bytes}

/-- No segment is `"."` or `".."`. -/
def NoDots (s : Bytes) : Prop := ∀ x ∈ s.splitOn ('/' : Byte), x ≠ lit "." ∧ x ≠ lit ".."

theorem noDots_append_slash : NoDots (a ++ ('/' : Byte) :: b) ↔ NoDots a ∧ NoDots b := by
  unfold NoDots
  rw [List.splitOn_append_cons_self, List.forall_mem_append]

theorem noDots_iff_of_not_mem (h : ('/' : Byte) ∉ x) :
    NoDots x ↔ x ≠ lit "." ∧ x ≠ lit ".." := by
  rw [NoDots, List.splitOn_eq_singleton h, List.forall_mem_singleton]

theorem noDots_nil : NoDots [] := (noDots_iff_of_not_mem List.not_mem_nil).2 (by decide)

theorem NoDots.dropLastSegment (h : NoDots o) : NoDots (dropLastSegment o) := by
  unfold Rfc3986.dropLastSegment
  cases hr : rfind ('/' : Byte) o with
  | none => exact noDots_nil
  | some p =>
    rw [(rfind_eq_some.1 hr).1] at h
    exact (noDots_append_slash.1 h).1

/-! The first segment, with the slash in front of it or without. -/

/-- What follows a segment. -/
def EndsSegment (r : Bytes) : Prop := r = [] ∨ ∃ r', r = ('/' : Byte) :: r'

theorem not_noDots (hd : d = lit "." ∨ d = lit "..") (hr : EndsSegment r) :
    ¬NoDots (d ++ r) := by
  have hn : ¬NoDots d := by
    have hmem : ('/' : Byte) ∉ d := by obtain rfl | rfl := hd <;> decide
    rw [noDots_iff_of_not_mem hmem]
    exact fun h => hd.elim h.1 h.2
  obtain rfl | ⟨r', rfl⟩ := hr
  · rwa [List.append_nil]
  · exact fun h => hn (noDots_append_slash.1 h).1

theorem ne_of_not_startsWith (hp : ¬d ++ [('/' : Byte)] <+: x ++ r) (hd : x ++ r ≠ d)
    (hr : EndsSegment r) : x ≠ d := by
  rintro rfl
  obtain rfl | ⟨r', rfl⟩ := hr
  · exact hd (List.append_nil x)
  · exact hp ⟨r', by simp⟩

theorem ne_of_not_startsWith_slash
    (hp : ¬('/' : Byte) :: d ++ [('/' : Byte)] <+: ('/' : Byte) :: (x ++ r))
    (hd : ('/' : Byte) :: (x ++ r) ≠ ('/' : Byte) :: d) (hr : EndsSegment r) : x ≠ d := fun hx =>
  ne_of_not_startsWith (x := ('/' : Byte) :: x) hp hd hr (congrArg _ hx)

theorem firstSegment_cases (hi : i ≠ []) : ∃ x r, ('/' : Byte) ∉ x ∧ EndsSegment r ∧
    i.drop (firstSegment i).length = r ∧
    (firstSegment i = ('/' : Byte) :: x ∧ i = ('/' : Byte) :: x ++ r ∨
      firstSegment i = x ∧ x ≠ [] ∧ i = x ++ r) := by
  obtain ⟨happ, hrest⟩ := @firstSegment_append i
  have hends : EndsSegment (i.drop (firstSegment i).length) := by
    refine hrest.imp_right fun h => ?_
    cases hr : i.drop (firstSegment i).length with
    | nil => simp [hr] at h
    | cons c r' => exact ⟨r', by rw [hr] at h; simpa using h⟩
  obtain ⟨c, t, rfl⟩ := List.exists_cons_of_ne_nil hi
  have hn : ('/' : Byte) ∉ (Cut.findFirstOf (fun c : Byte => decide (c = '/')) t).1 :=
    fun hm => by simpa using Cut.not_stop_of_mem hm
  by_cases hc : c = '/'
  · subst hc
    exact ⟨_, _, hn, hends, rfl, .inl ⟨rfl, happ.symm⟩⟩
  · exact ⟨_, _, by simp [firstSegment, hn, Ne.symm hc], hends, rfl,
      .inr ⟨rfl, by simp [firstSegment], happ.symm⟩⟩

/-! What is put out has no dot segment. -/

/-- Where a turn starts: at the slash before a segment, or at a segment when the output has
none that is not ended. -/
def AtStart (i o : Bytes) : Prop :=
  i = [] ∨ i.head? = some ('/' : Byte) ∨ o = [] ∨ ∃ o', o = o' ++ [('/' : Byte)]

theorem atStart_of_endsSegment (h : EndsSegment i) : AtStart i o := by
  obtain rfl | ⟨r, rfl⟩ := h
  · exact .inl rfl
  · exact .inr (.inl rfl)

theorem noDots_append (ho : NoDots o) (hx : NoDots x)
    (hat : o = [] ∨ ∃ o', o = o' ++ [('/' : Byte)]) :
    NoDots (o ++ x) := by
  obtain rfl | ⟨o', rfl⟩ := hat
  · exact hx
  · rw [List.append_assoc, List.singleton_append, noDots_append_slash]
    exact ⟨(noDots_append_slash.1 ho).1, hx⟩

theorem throughSlash_noDots {t : Bytes} (hn : ∀ x r, t = x ++ r → EndsSegment r →
    ('/' : Byte) ∉ x → x ≠ lit "." ∧ x ≠ lit "..") :
    NoDots (throughSlash t).1 ∧ AtStart (throughSlash t).2 (throughSlash t).1 := by
  unfold throughSlash
  cases hf : find ('/' : Byte) t with
  | none =>
    have hmem := find_eq_none.1 hf
    have hx := hn t [] (List.append_nil t).symm (.inl rfl) hmem
    exact ⟨(noDots_iff_of_not_mem hmem).2 hx, .inl rfl⟩
  | some p =>
    obtain ⟨ht, hmem⟩ := find_eq_some.1 hf
    have hx := hn p.1 _ ht (.inr ⟨p.2, rfl⟩) hmem
    exact ⟨noDots_append_slash.2 ⟨(noDots_iff_of_not_mem hmem).2 hx, noDots_nil⟩,
      .inr (.inr (.inr ⟨p.1, rfl⟩))⟩

theorem dotStep_noDots (hi : i ≠ []) (ho : NoDots o) (hat : AtStart i o) :
    NoDots (dotStep isRel i o).2 ∧ AtStart (dotStep isRel i o).1 (dotStep isRel i o).2 := by
  have hstart : i.head? ≠ some ('/' : Byte) → o = [] ∨ ∃ o', o = o' ++ [('/' : Byte)] :=
    fun h => (hat.resolve_left hi).resolve_left h
  refine dotStep_cases ?here ?up ?slashHere ?slashHereEnd ?slashUp ?slashUpEnd ?dots ?skip ?move
  case here =>
    rintro ⟨w, rfl⟩
    exact ⟨ho, .inr (.inr (hstart (by simp [lit])))⟩
  case up =>
    rintro ⟨w, rfl⟩
    exact ⟨ho, .inr (.inr (hstart (by simp [lit])))⟩
  case slashHere =>
    rintro ⟨w, rfl⟩
    exact ⟨ho, .inr (.inl rfl)⟩
  case slashHereEnd => exact fun _ => ⟨ho, .inr (.inl rfl)⟩
  case slashUp =>
    rintro ⟨w, rfl⟩
    exact ⟨ho.dropLastSegment, .inr (.inl rfl)⟩
  case slashUpEnd => exact fun _ => ⟨ho.dropLastSegment, .inr (.inl rfl)⟩
  case dots => exact fun _ => ⟨noDots_nil, .inl rfl⟩
  case skip =>
    intro hi _ _ hhead
    obtain ⟨t, rfl⟩ : ∃ t, i = ('/' : Byte) :: t := ⟨i.tail, List.eq_cons_of_mem_head? hhead⟩
    apply throughSlash_noDots
    rintro x r rfl hr -
    exact ⟨ne_of_not_startsWith_slash hi.slashHere hi.slashHereEnd hr,
      ne_of_not_startsWith_slash hi.slashUp hi.slashUpEnd hr⟩
  case move =>
    intro hahead _
    obtain ⟨x, r, hx, hr, hdrop, ⟨hseg, rfl⟩ | ⟨hseg, hne, rfl⟩⟩ := firstSegment_cases hi
    · rw [hdrop, hseg]
      have hx' : NoDots x := (noDots_iff_of_not_mem hx).2
        ⟨ne_of_not_startsWith_slash hahead.slashHere hahead.slashHereEnd hr,
          ne_of_not_startsWith_slash hahead.slashUp hahead.slashUpEnd hr⟩
      exact ⟨noDots_append_slash.2 ⟨ho, hx'⟩, atStart_of_endsSegment hr⟩
    · rw [hdrop, hseg]
      have hx' : NoDots x := (noDots_iff_of_not_mem hx).2
        ⟨ne_of_not_startsWith hahead.here (fun e => hahead.dots (.inl e)) hr,
          ne_of_not_startsWith hahead.up (fun e => hahead.dots (.inr e)) hr⟩
      refine ⟨noDots_append ho hx' (hstart ?_), atStart_of_endsSegment hr⟩
      obtain ⟨c, t, rfl⟩ := List.exists_cons_of_ne_nil hne
      have hc : c ≠ '/' := fun e => hx (e ▸ List.mem_cons_self)
      simpa using hc

theorem dotRun_noDots (ho : NoDots o) (hat : AtStart i o) : NoDots (dotRun isRel i o) := by
  fun_induction dotRun isRel i o with
  | case1 => exact ho
  | case2 i o hi ih =>
    obtain ⟨ho', hat'⟩ := @dotStep_noDots isRel _ _ hi ho hat
    exact ih ho' hat'

/-! Text without dot segments is moved segment by segment, and comes out as it was. -/

theorem dotStep_of_noDots (hi : i ≠ []) (hn : NoDots (o ++ i))
    (hat : o ≠ [] → i.head? = some ('/' : Byte))
    (hrel : isRel = true → o = [] → i.head? ≠ some ('/' : Byte)) :
    dotStep isRel i o = (i.drop (firstSegment i).length, o ++ firstSegment i) := by
  have hhead (d r : Bytes) (hd : d = lit "." ∨ d = lit "..") (hr : EndsSegment r) :
      d ++ r ≠ i := by
    rintro rfl
    have hdot : (d ++ r).head? = some ('.' : Byte) := by obtain rfl | rfl := hd <;> rfl
    have ho : o = [] := by
      by_contra ho
      exact absurd (hdot.symm.trans (hat ho)) (by decide)
    rw [ho, List.nil_append] at hn
    exact not_noDots hd hr hn
  have hslash (d r : Bytes) (hd : d = lit "." ∨ d = lit "..") (hr : EndsSegment r) :
      ('/' : Byte) :: (d ++ r) ≠ i := by
    rintro rfl
    exact not_noDots hd hr (noDots_append_slash.1 hn).2
  have hnil : EndsSegment [] := .inl rfl
  have hcons (w : Bytes) : EndsSegment (('/' : Byte) :: w) := .inr ⟨w, rfl⟩
  refine dotStep_cases ?here ?up ?slashHere ?slashHereEnd ?slashUp ?slashUpEnd ?dots ?skip ?move
  case here => exact fun ⟨_, hw⟩ => absurd hw (hhead (lit ".") _ (.inl rfl) (hcons _))
  case up => exact fun ⟨_, hw⟩ => absurd hw (hhead (lit "..") _ (.inr rfl) (hcons _))
  case slashHere => exact fun ⟨_, hw⟩ => absurd hw (hslash (lit ".") _ (.inl rfl) (hcons _))
  case slashHereEnd => exact fun h => absurd h.symm (hslash (lit ".") _ (.inl rfl) hnil)
  case slashUp => exact fun ⟨_, hw⟩ => absurd hw (hslash (lit "..") _ (.inr rfl) (hcons _))
  case slashUpEnd => exact fun h => absurd h.symm (hslash (lit "..") _ (.inr rfl) hnil)
  case dots =>
    rintro (h | h)
    · exact absurd h.symm (hhead (lit ".") _ (.inl rfl) hnil)
    · exact absurd h.symm (hhead (lit "..") _ (.inr rfl) hnil)
  case skip => exact fun _ hisRel ho hslash => absurd hslash (hrel hisRel ho)
  case move => exact fun _ _ => rfl

theorem dotRun_of_noDots (hn : NoDots (o ++ i))
    (hat : i ≠ [] → o ≠ [] → i.head? = some ('/' : Byte))
    (hrel : isRel = true → o = [] → i.head? ≠ some ('/' : Byte)) :
    dotRun isRel i o = o ++ i := by
  fun_induction dotRun isRel i o with
  | case1 => exact (List.append_nil _).symm
  | case2 i o hi ih =>
    have hstep := dotStep_of_noDots hi hn (hat hi) hrel
    obtain ⟨happ, hrest⟩ := @firstSegment_append i
    have hall : o ++ firstSegment i ++ i.drop (firstSegment i).length = o ++ i := by
      rw [List.append_assoc, happ]
    have hseg : o ++ firstSegment i ≠ [] := by
      obtain ⟨c, t, rfl⟩ := List.exists_cons_of_ne_nil hi
      simp [firstSegment]
    rw [hstep] at ih ⊢
    exact (ih (hall ▸ hn) (fun hne _ => hrest.resolve_left hne)
      fun _ h => absurd h hseg).trans hall

/-! What is appended. -/

variable {asserts : Bool} {t : Tag} {dest : Codec} {path : Bytes}

theorem removeDotSegmentsAppend_asIs : removeDotSegmentsAppend asserts t dest .asIs path =
    removeDotSegmentsInplace (.ok path) := by
  have hcvt : codecCvtAppend asserts t dest .asIs path = .ok path := by
    simp [codecCvtAppend]
  rw [removeDotSegmentsAppend, removeDotSegmentsInplace, hcvt, Out.text_ok]
  split_ifs with h
  · rw [h]
  · rfl

theorem removeDotSegmentsInplace_yields (h : path ≠ []) :
    (removeDotSegmentsInplace (.ok path)).Yields (dotRun (isRelative path) path []) := by
  rw [removeDotSegmentsInplace, Out.text_ok, if_neg h]
  exact ⟨rfl, dotLoop_pair h⟩

theorem removeDotSegmentsInplace_idem (h : NoDots path) :
    (removeDotSegmentsInplace (.ok path)).Yields path := by
  by_cases hne : path = []
  · rw [hne]
    exact Out.yields_ok
  · have hsame : dotRun (isRelative path) path [] = path :=
      dotRun_of_noDots h (fun _ hn => absurd rfl hn) fun hrel _ => of_decide_eq_true hrel
    have hy := removeDotSegmentsInplace_yields hne
    rwa [hsame] at hy

/-- On every path the loop ends, leaves no dot segment, and leaves its own output alone, in place
or in another buffer. -/
theorem remove_dot_segments_complete (asserts : Bool) (t : Tag) (dest : Codec) (path : Bytes) :
    (∃ s, Loop.Ends (dotTurn (isRelative path)) ⟨path, 0, 0⟩ s) ∧
      ∃ out, (removeDotSegmentsInplace (.ok path)).Yields out ∧
        (removeDotSegmentsAppend asserts t dest .asIs path).Yields out ∧
        (∀ x ∈ out.splitOn ('/' : Byte), x ≠ lit "." ∧ x ≠ lit "..") ∧
        (removeDotSegmentsInplace (.ok out)).Yields out ∧
        (removeDotSegmentsAppend asserts t dest .asIs out).Yields out := by
  refine ⟨⟨_, ends_dotLoop⟩, ?_⟩
  simp only [removeDotSegmentsAppend_asIs]
  obtain ⟨out, hy, hout⟩ : ∃ out, (removeDotSegmentsInplace (.ok path)).Yields out ∧
      NoDots out := by
    by_cases hne : path = []
    · rw [hne]
      exact ⟨[], Out.yields_ok, noDots_nil⟩
    · exact ⟨_, removeDotSegmentsInplace_yields hne,
        dotRun_noDots noDots_nil (.inr (.inr (.inl rfl)))⟩
  have hidem := removeDotSegmentsInplace_idem hout
  exact ⟨out, hy, hy, hout, hidem, hidem⟩

end Jkl.Uri
