import Jkl.Uri.DotSegments
import Jkl.Uri.Rfc3986

/-! The loop inside one buffer is a loop on two: what is unread and what has been put out. -/
namespace Jkl.Uri

open Copy (moveLeft take_moveLeft drop_moveLeft)
open Cut (find rfind findFirstOf_eq findFirstOf_of_none find_eq_none find_eq_some rfind_append
  rfind_eq_none rfind_eq_some)
open Loop (Turn)
open Rfc3986 (firstSegment dropLastSegment)

variable {isRel : Bool} {s s' : DotState} {a b i o : Bytes} {x : Byte}

/-! The pieces that are moved or dropped. -/

theorem dropLastSegment_concat_slash : dropLastSegment (a ++ [('/' : Byte)]) = a := by
  rw [dropLastSegment, rfind_append (List.not_mem_nil)]

theorem dropLastSegment_concat (hx : x ≠ '/') :
    dropLastSegment (a ++ [x]) = dropLastSegment a := by
  unfold dropLastSegment
  cases h : rfind ('/' : Byte) a with
  | none =>
    have hn : ('/' : Byte) ∉ a ++ [x] := by
      simp [rfind_eq_none.1 h, Ne.symm hx]
    rw [rfind_eq_none.2 hn]
  | some p =>
    obtain ⟨ha, hn⟩ := rfind_eq_some.1 h
    have hp : ('/' : Byte) ∉ p.2 ++ [x] := by
      simp [hn, Ne.symm hx]
    rw [ha, List.append_assoc, List.cons_append, rfind_append hp]

theorem backToSlash_spec {buf : Bytes} {op : ℕ} (h : op ≤ buf.length) :
    backToSlash buf op ≤ op ∧
      buf.take (backToSlash buf op) = dropLastSegment (buf.take op) := by
  induction op with
  | zero => simp [backToSlash, dropLastSegment, rfind]
  | succ op ih =>
    have hx : buf[op]? = some buf[op] := List.getElem?_eq_getElem (by omega)
    have htake : buf.take (op + 1) = buf.take op ++ [buf[op]] := by
      rw [List.take_add_one, hx, Option.toList_some]
    rw [backToSlash, htake, hx]
    by_cases he : buf[op] = ('/' : Byte)
    · rw [he, if_pos rfl, dropLastSegment_concat_slash]
      exact ⟨by omega, rfl⟩
    · obtain ⟨hle, ht⟩ := ih (by omega)
      rw [if_neg fun e => he (Option.some.inj e), dropLastSegment_concat he]
      exact ⟨by omega, ht⟩

theorem firstSegment_eq : firstSegment i = i.take ((findSlash i).getD i.length) ∧
    (i.drop ((findSlash i).getD i.length) = [] ∨
      ∃ r, i.drop ((findSlash i).getD i.length) = ('/' : Byte) :: r) := by
  cases i with
  | nil => simp [firstSegment]
  | cons c s =>
    rw [firstSegment, findSlash, List.tail_cons]
    cases h : find ('/' : Byte) s with
    | none =>
      have hall : ∀ d ∈ s, decide (d = ('/' : Byte)) = false := fun d hd =>
        decide_eq_false fun e => find_eq_none.1 h (e ▸ hd)
      simp [findFirstOf_of_none hall]
    | some p =>
      obtain ⟨rfl, hn⟩ := find_eq_some.1 h
      have hall : ∀ d ∈ p.1, decide (d = ('/' : Byte)) = false := fun d hd =>
        decide_eq_false fun e => hn (e ▸ hd)
      rw [findFirstOf_eq hall (by simp)]
      simp

/-- What the last branch moves when it has skipped a first `'/'`: as many bytes as there are up
to the next `'/'`, so with that one, which counts from the skipped byte on. -/
def throughSlash (s : Bytes) : Bytes × Bytes :=
  match find ('/' : Byte) s with
  | some (a, b) => (a ++ [('/' : Byte)], b)
  | none => (s, [])

theorem throughSlash_eq {c : Byte} {n : ℕ}
    (hn : n = min ((findSlash (c :: i)).getD (c :: i).length) i.length) :
    throughSlash i = (i.take n, i.drop n) := by
  unfold throughSlash findSlash at *
  rw [List.tail_cons] at hn
  cases h : find ('/' : Byte) i with
  | none =>
    rw [h, Option.map_none, Option.getD_none, List.length_cons, Nat.min_eq_right (by omega)] at hn
    simp [hn]
  | some p =>
    obtain ⟨rfl, -⟩ := find_eq_some.1 h
    rw [h, Option.map_some, Option.getD_some, List.length_append, List.length_cons,
      Nat.min_eq_left (by omega)] at hn
    simp [hn, List.take_append, List.drop_append]

/-! One turn. -/

/-- A turn of the loop, on what is unread and what has been put out. -/
def dotStep (isRel : Bool) (i o : Bytes) : Bytes × Bytes :=
  if lit "./" <+: i then (i.drop 2, o)
  else if lit "../" <+: i then (i.drop 3, o)
  else if lit "/./" <+: i then (i.drop 2, o)
  else if i = lit "/." then (lit "/", o)
  else if lit "/../" <+: i then (i.drop 3, dropLastSegment o)
  else if i = lit "/.." then (lit "/", dropLastSegment o)
  else if i = lit "." ∨ i = lit ".." then ([], [])
  else if isRel ∧ o = [] ∧ i.head? = some ('/' : Byte) then
    ((throughSlash i.tail).2, (throughSlash i.tail).1)
  else (i.drop (firstSegment i).length, o ++ firstSegment i)

/-- Neither dots nor dots behind a `'/'` are the first segment. -/
structure NoDotsAhead (i : Bytes) : Prop where
  here : ¬lit "./" <+: i
  up : ¬lit "../" <+: i
  slashHere : ¬lit "/./" <+: i
  slashHereEnd : i ≠ lit "/."
  slashUp : ¬lit "/../" <+: i
  slashUpEnd : i ≠ lit "/.."
  dots : ¬(i = lit "." ∨ i = lit "..")

/-- What a turn can do. -/
@[elab_as_elim] theorem dotStep_cases {motive : Bytes × Bytes → Prop}
    (here : lit "./" <+: i → motive (i.drop 2, o))
    (up : lit "../" <+: i → motive (i.drop 3, o))
    (slashHere : lit "/./" <+: i → motive (i.drop 2, o))
    (slashHereEnd : i = lit "/." → motive (lit "/", o))
    (slashUp : lit "/../" <+: i → motive (i.drop 3, dropLastSegment o))
    (slashUpEnd : i = lit "/.." → motive (lit "/", dropLastSegment o))
    (dots : i = lit "." ∨ i = lit ".." → motive ([], []))
    (skip : NoDotsAhead i → isRel = true → o = [] → i.head? = some ('/' : Byte) →
      motive ((throughSlash i.tail).2, (throughSlash i.tail).1))
    (move : NoDotsAhead i → ¬(isRel = true ∧ o = [] ∧ i.head? = some ('/' : Byte)) →
      motive (i.drop (firstSegment i).length, o ++ firstSegment i)) :
    motive (dotStep isRel i o) := by
  unfold dotStep
  by_cases h₁ : lit "./" <+: i
  · rw [if_pos h₁]
    exact here h₁
  by_cases h₂ : lit "../" <+: i
  · rw [if_neg h₁, if_pos h₂]
    exact up h₂
  by_cases h₃ : lit "/./" <+: i
  · rw [if_neg h₁, if_neg h₂, if_pos h₃]
    exact slashHere h₃
  by_cases h₄ : i = lit "/."
  · rw [if_neg h₁, if_neg h₂, if_neg h₃, if_pos h₄]
    exact slashHereEnd h₄
  by_cases h₅ : lit "/../" <+: i
  · rw [if_neg h₁, if_neg h₂, if_neg h₃, if_neg h₄, if_pos h₅]
    exact slashUp h₅
  by_cases h₆ : i = lit "/.."
  · rw [if_neg h₁, if_neg h₂, if_neg h₃, if_neg h₄, if_neg h₅, if_pos h₆]
    exact slashUpEnd h₆
  by_cases h₇ : i = lit "." ∨ i = lit ".."
  · rw [if_neg h₁, if_neg h₂, if_neg h₃, if_neg h₄, if_neg h₅, if_neg h₆, if_pos h₇]
    exact dots h₇
  rw [if_neg h₁, if_neg h₂, if_neg h₃, if_neg h₄, if_neg h₅, if_neg h₆, if_neg h₇]
  by_cases h₈ : isRel = true ∧ o = [] ∧ i.head? = some ('/' : Byte)
  · rw [if_pos h₈]
    exact skip ⟨h₁, h₂, h₃, h₄, h₅, h₆, h₇⟩ h₈.1 h₈.2.1 h₈.2.2
  · rw [if_neg h₈]
    exact move ⟨h₁, h₂, h₃, h₄, h₅, h₆, h₇⟩ h₈

theorem DotState.ip_lt (hs : s.rest ≠ []) : s.ip < s.buf.length := by
  by_contra hge
  exact hs (List.drop_eq_nil_of_le (Nat.le_of_not_lt hge))

theorem DotState.done_eq_nil (hs : s.rest ≠ []) : s.done = [] ↔ s.op = 0 := by
  have hip := s.ip_lt hs
  rw [DotState.done, List.take_eq_nil_iff]
  exact or_iff_left fun e => by simp [e] at hip

theorem moveSegment_skips (hs : s.rest ≠ [])
    (h : isRel = true ∧ s.op = 0 ∧ s.rest.head? = some ('/' : Byte)) :
    (moveSegment isRel s).op ≤ (moveSegment isRel s).ip ∧
      (moveSegment isRel s).rest = (throughSlash s.rest.tail).2 ∧
      (moveSegment isRel s).done = (throughSlash s.rest.tail).1 := by
  have hlen : s.rest.length = s.buf.length - s.ip := List.length_drop
  have hip := s.ip_lt hs
  obtain ⟨c, t, ht⟩ := List.exists_cons_of_ne_nil hs
  have htail : s.buf.drop (s.ip + 1) = t := by
    rw [← List.drop_drop]
    exact congrArg (List.drop 1) ht
  obtain ⟨n, hn⟩ : ∃ n, n = min ((findSlash (c :: t)).getD (c :: t).length) t.length := ⟨_, rfl⟩
  have hmove : moveSegment isRel s = ⟨moveLeft s.buf 0 (s.ip + 1) n, 0 + n, s.ip + n + 1⟩ := by
    unfold moveSegment
    simp only [if_pos h, ne_eq, one_ne_zero, not_false_eq_true, true_or, if_true]
    rw [h.2.1, ht, hn]
    rfl
  have hfit : s.ip + 1 + n ≤ s.buf.length := by
    have hnt : n ≤ t.length := hn ▸ Nat.min_le_right _ _
    rw [ht, List.length_cons] at hlen
    omega
  rw [hmove, ht, List.tail_cons, throughSlash_eq hn]
  refine ⟨by dsimp only; omega, ?_, ?_⟩
  · change (moveLeft s.buf 0 (s.ip + 1) n).drop (s.ip + n + 1) = t.drop n
    rw [drop_moveLeft (Nat.zero_le _) hfit (by omega), ← htail, List.drop_drop]
    congr 1
    omega
  · change (moveLeft s.buf 0 (s.ip + 1) n).take (0 + n) = t.take n
    rw [take_moveLeft (Nat.zero_le _) hfit, List.take_zero, List.nil_append, htail]

theorem moveSegment_moves (hop : s.op ≤ s.ip) (hs : s.rest ≠ [])
    (h : ¬(isRel = true ∧ s.op = 0 ∧ s.rest.head? = some ('/' : Byte))) :
    (moveSegment isRel s).op ≤ (moveSegment isRel s).ip ∧
      (moveSegment isRel s).rest = s.rest.drop (firstSegment s.rest).length ∧
      (moveSegment isRel s).done = s.done ++ firstSegment s.rest := by
  have hip := s.ip_lt hs
  obtain ⟨hseg, -⟩ := @firstSegment_eq s.rest
  obtain ⟨-, hle⟩ := findSlash_le hs
  have hlen : s.rest.length = s.buf.length - s.ip := List.length_drop
  rw [hseg, List.length_take, Nat.min_eq_left hle]
  unfold moveSegment
  simp only [if_neg h, ne_eq, not_true_eq_false, false_or, Nat.sub_zero, Nat.add_zero,
    Nat.min_eq_left hle]
  generalize (findSlash s.rest).getD s.rest.length = q at *
  by_cases he : s.op = s.ip
  · rw [if_neg (not_not.2 he)]
    refine ⟨Nat.add_le_add_right hop q, List.drop_drop.symm, ?_⟩
    change s.buf.take (s.op + q) = s.buf.take s.op ++ (s.buf.drop s.ip).take q
    rw [he, List.take_add]
  · rw [if_pos he]
    refine ⟨Nat.add_le_add_right hop q, ?_, take_moveLeft hop (by omega)⟩
    -- the bytes that were moved are all to the left of what is still to be read
    change (moveLeft s.buf s.op s.ip q).drop (s.ip + q) = (s.buf.drop s.ip).drop q
    rw [drop_moveLeft hop (by omega) (by omega), List.drop_drop]

/-- A turn in one buffer is a turn on two; leaving from the middle counts as having read all. -/
theorem dotBody_pair (hop : s.op ≤ s.ip) (hs : s.rest ≠ []) :
    (∃ s', dotBody isRel s = .next s' ∧ s'.op ≤ s'.ip ∧
        dotStep isRel s.rest s.done = (s'.rest, s'.done)) ∨
      ∃ s', dotBody isRel s = .done s' ∧ s'.op ≤ s'.ip ∧ s'.rest = s.rest ∧
        dotStep isRel s.rest s.done = ([], s'.done) := by
  have hip := s.ip_lt hs
  have hdrop : ∀ n, s.buf.drop (s.ip + n) = s.rest.drop n := fun n => List.drop_drop.symm
  have hpatch : ∀ n, (s.buf.set (s.ip + n) '/').drop (s.ip + n) = (s.rest.drop n).set 0 '/' := by
    intro n
    rw [List.drop_set, if_neg (lt_irrefl _), Nat.sub_self, hdrop]
  have hset : ∀ n, (s.buf.set (s.ip + n) '/').take s.op = s.done := fun n =>
    List.take_set_of_le (by omega)
  unfold dotBody dotStep
  dsimp only
  by_cases h₁ : lit "./" <+: s.rest
  · simp only [if_pos h₁]
    exact .inl ⟨_, rfl, by dsimp only; omega, by rw [← hdrop]; rfl⟩
  by_cases h₂ : lit "../" <+: s.rest
  · simp only [if_neg h₁, if_pos h₂]
    exact .inl ⟨_, rfl, by dsimp only; omega, by rw [← hdrop]; rfl⟩
  by_cases h₃ : lit "/./" <+: s.rest
  · simp only [if_neg h₁, if_neg h₂, if_pos h₃]
    exact .inl ⟨_, rfl, by dsimp only; omega, by rw [← hdrop]; rfl⟩
  simp only [if_neg h₁, if_neg h₂, if_neg h₃]
  by_cases h₄ : s.rest = lit "/."
  · simp only [if_pos h₄]
    refine .inl ⟨_, rfl, by dsimp only; omega, ?_⟩
    change _ = ((s.buf.set (s.ip + 1) '/').drop (s.ip + 1), (s.buf.set _ _).take s.op)
    rw [hpatch, h₄, hset]
    rfl
  by_cases h₅ : lit "/../" <+: s.rest
  · simp only [if_neg h₄, if_pos h₅]
    obtain ⟨hback, htake⟩ := @backToSlash_spec s.buf s.op (by omega)
    refine .inl ⟨_, rfl, by dsimp only; omega, ?_⟩
    rw [← hdrop, DotState.done, ← htake]
    rfl
  by_cases h₆ : s.rest = lit "/.."
  · simp only [if_neg h₄, if_neg h₅, if_pos h₆]
    obtain ⟨hback, htake⟩ := @backToSlash_spec (s.buf.set (s.ip + 2) '/') s.op
      (by rw [List.length_set]; omega)
    refine .inl ⟨_, rfl, by dsimp only; omega, ?_⟩
    change _ = ((s.buf.set (s.ip + 2) '/').drop (s.ip + 2), (s.buf.set _ _).take _)
    rw [hpatch, h₆, htake, hset]
    rfl
  simp only [if_neg h₄, if_neg h₅, if_neg h₆]
  by_cases h₇ : s.rest = lit "." ∨ s.rest = lit ".."
  · simp only [if_pos h₇]
    exact .inr ⟨_, rfl, Nat.zero_le _, rfl, rfl⟩
  simp only [if_neg h₇, s.done_eq_nil hs]
  by_cases h₈ : isRel = true ∧ s.op = 0 ∧ s.rest.head? = some ('/' : Byte)
  · obtain ⟨hle, hrest, hdone⟩ := moveSegment_skips hs h₈
    rw [if_pos h₈]
    exact .inl ⟨_, rfl, hle, by rw [hrest, hdone]⟩
  · obtain ⟨hle, hrest, hdone⟩ := moveSegment_moves hop hs h₈
    rw [if_neg h₈]
    exact .inl ⟨_, rfl, hle, by rw [hrest, hdone]⟩

/-! The loop. -/

theorem throughSlash_append : (throughSlash i).1 ++ (throughSlash i).2 = i := by
  unfold throughSlash
  cases h : find ('/' : Byte) i with
  | none => exact List.append_nil i
  | some p => rw [(find_eq_some.1 h).1, List.append_assoc, List.singleton_append]

/-- What a turn leaves to be read was left to be read before, but for the slash that the last
dots of a path turn into. -/
theorem dotStep_unread : (dotStep isRel i o).1 <:+ i ∨
    (i = lit "/." ∨ i = lit "/..") ∧ (dotStep isRel i o).1 = lit "/" := by
  refine dotStep_cases ?here ?up ?slashHere ?slashHereEnd ?slashUp ?slashUpEnd ?dots ?skip ?move
  case here => exact fun _ => .inl (List.drop_suffix 2 i)
  case up => exact fun _ => .inl (List.drop_suffix 3 i)
  case slashHere => exact fun _ => .inl (List.drop_suffix 2 i)
  case slashHereEnd => exact fun h => .inr ⟨.inl h, rfl⟩
  case slashUp => exact fun _ => .inl (List.drop_suffix 3 i)
  case slashUpEnd => exact fun h => .inr ⟨.inr h, rfl⟩
  case dots => exact fun _ => .inl List.nil_suffix
  case skip =>
    have hsuffix : (throughSlash i.tail).2 <:+ i.tail := ⟨_, throughSlash_append⟩
    exact fun _ _ _ _ => .inl (hsuffix.trans (List.tail_suffix i))
  case move => exact fun _ _ => .inl (List.drop_suffix _ i)

theorem length_dotStep (h : i ≠ []) : (dotStep isRel i o).1.length < i.length := by
  have hlen := List.length_pos_iff.2 h
  have hdrop : ∀ n, 0 < n → (i.drop n).length < i.length := by
    intro n hn
    rw [List.length_drop]
    omega
  refine dotStep_cases ?here ?up ?slashHere ?slashHereEnd ?slashUp ?slashUpEnd ?dots ?skip ?move
  case here => exact fun _ => hdrop 2 (by omega)
  case up => exact fun _ => hdrop 3 (by omega)
  case slashHere => exact fun _ => hdrop 2 (by omega)
  case slashHereEnd => exact fun e => e ▸ (by decide : (lit "/").length < (lit "/.").length)
  case slashUp => exact fun _ => hdrop 3 (by omega)
  case slashUpEnd => exact fun e => e ▸ (by decide : (lit "/").length < (lit "/..").length)
  case dots => exact fun _ => hlen
  case skip =>
    intro _ _ _ _
    have := congrArg List.length (@throughSlash_append i.tail)
    rw [List.length_append, List.length_tail] at this
    dsimp only
    omega
  case move =>
    intro _ _
    obtain ⟨hpos, hle⟩ := findSlash_le h
    apply hdrop
    rw [(@firstSegment_eq i).1, List.length_take]
    omega

/-- Turns until nothing is unread. -/
def dotRun (isRel : Bool) (i o : Bytes) : Bytes :=
  if i = [] then o else dotRun isRel (dotStep isRel i o).1 (dotStep isRel i o).2
termination_by i.length
decreasing_by exact length_dotStep ‹_›

theorem dotRun_nil : dotRun isRel [] o = o := by
  rw [dotRun, if_pos rfl]

theorem dotRun_cons (h : i ≠ []) :
    dotRun isRel i o = dotRun isRel (dotStep isRel i o).1 (dotStep isRel i o).2 := by
  rw [dotRun, if_neg h]

theorem dotTurn_pair (hop : s.op ≤ s.ip) (hs : s.rest ≠ []) :
    (∃ s', dotTurn isRel s = .next s' ∧ s'.op ≤ s'.ip ∧ s'.rest ≠ [] ∧
        dotStep isRel s.rest s.done = (s'.rest, s'.done)) ∨
      ∃ s', dotTurn isRel s = .done s' ∧ s'.op ≤ s'.ip ∧ (s'.rest = [] ∨ s'.rest = s.rest) ∧
        dotStep isRel s.rest s.done = ([], s'.done) := by
  unfold dotTurn
  obtain ⟨t, ht, hle, hstep⟩ | ⟨t, ht, hle, hrest, hstep⟩ := @dotBody_pair isRel s hop hs
  · rw [ht]
    dsimp only
    split_ifs with hnil
    · exact .inr ⟨t, rfl, hle, .inl hnil, hnil ▸ hstep⟩
    · exact .inl ⟨t, rfl, hle, hnil, hstep⟩
  · rw [ht]
    exact .inr ⟨t, rfl, hle, .inr hrest, hstep⟩

theorem ends_pair (h : Loop.Ends (dotTurn isRel) s s') (hop : s.op ≤ s.ip) (hs : s.rest ≠ []) :
    s'.done = dotRun isRel s.rest s.done := by
  induction h with
  | done hd =>
    obtain ⟨t, ht, -⟩ | ⟨t, ht, -, -, hstep⟩ := @dotTurn_pair isRel _ hop hs
    · cases ht.symm.trans hd
    · cases ht.symm.trans hd
      rw [dotRun_cons hs, hstep, dotRun_nil]
  | next hn _ ih =>
    obtain ⟨t, ht, hle, hrest, hstep⟩ | ⟨t, ht, -⟩ := @dotTurn_pair isRel _ hop hs
    · cases ht.symm.trans hn
      rw [dotRun_cons hs, hstep]
      exact ih hle hrest
    · cases ht.symm.trans hn

/-- The loop inside one buffer puts out what the loop on two does. -/
theorem dotLoop_pair {buf : Bytes} (h : buf ≠ []) :
    (dotLoop isRel buf).done = dotRun isRel buf [] :=
  ends_pair ends_dotLoop le_rfl h

/-- In no turn of the loop entered on the buffer does output get into unread input. -/
def KeepsUnread (isRel : Bool) (buf : Bytes) : Prop :=
  ∀ s, Loop.Reaches (dotTurn isRel) ⟨buf, 0, 0⟩ s → s.op ≤ s.ip ∧
    ∀ s', dotTurn isRel s = .next s' ∨ dotTurn isRel s = .done s' → s'.op ≤ s'.ip ∧
      (s'.rest <:+ s.rest ∨ (s.rest = lit "/." ∨ s.rest = lit "/..") ∧ s'.rest = lit "/")

theorem keepsUnread {buf : Bytes} (h : buf ≠ []) : KeepsUnread isRel buf := by
  intro s hr
  have hinv : s.op ≤ s.ip ∧ s.rest ≠ [] := by
    induction hr with
    | refl => exact ⟨le_rfl, h⟩
    | tail _ hn ih =>
      obtain ⟨t, ht, hle, hrest, -⟩ | ⟨t, ht, -⟩ := @dotTurn_pair isRel _ ih.1 ih.2
      · cases ht.symm.trans hn
        exact ⟨hle, hrest⟩
      · cases ht.symm.trans hn
  refine ⟨hinv.1, ?_⟩
  have hunread := @dotStep_unread isRel s.rest s.done
  obtain ⟨t, ht, hle, -, hstep⟩ | ⟨t, ht, hle, hrest, -⟩ := @dotTurn_pair isRel s hinv.1 hinv.2
  · rintro s' (hn | hn) <;> cases ht.symm.trans hn
    rw [hstep] at hunread
    exact ⟨hle, hunread⟩
  · rintro s' (hn | hn) <;> cases ht.symm.trans hn
    refine ⟨hle, .inl ?_⟩
    obtain hnil | hsame := hrest
    · rw [hnil]
      exact List.nil_suffix
    · rw [hsame]

end Jkl.Uri
