import Jkl.Lib.Cut
import Jkl.Uri.Types

/-! Reference resolution as RFC 3986 writes it down. -/
namespace Jkl.Uri.Rfc3986

open Cut (rfind findFirstOf)

/-- A URI reference; a component that is not there is undefined, which differs from empty. -/
@[ext] structure Reference where
  scheme : Option Bytes
  authority : Option Bytes
  path : Bytes
  query : Option Bytes
  fragment : Option Bytes
deriving DecidableEq

/-! Appendix B: the split by
`^(([^:/?#]+):)?(//([^/?#]*))?([^?#]*)(\?([^#]*))?(#(.*))?`. -/

def splitScheme (s : Bytes) : Option Bytes × Bytes :=
  match findFirstOf (fun c => c ∈ lit ":/?#") s with
  | (c :: a, d :: b) => if d = ':' then (some (c :: a), b) else (none, s)
  | _ => (none, s)

def splitAuthority (s : Bytes) : Option Bytes × Bytes :=
  if lit "//" <+: s then
    let p := findFirstOf (fun c => c ∈ lit "/?#") (s.drop 2)
    (some p.1, p.2)
  else (none, s)

/-- A part that begins with the delimiter and goes up to the bytes that end it. -/
def splitAfter (delim : Byte) (ends : Bytes) : Bytes → Option Bytes × Bytes
  | [] => (none, [])
  | c :: s =>
    if c = delim then
      let p := findFirstOf (fun c => c ∈ ends) s
      (some p.1, p.2)
    else (none, c :: s)

def parse (s : Bytes) : Reference :=
  let (scheme, s) := splitScheme s
  let (authority, s) := splitAuthority s
  let (path, s) := findFirstOf (fun c => c ∈ lit "?#") s
  let (query, s) := splitAfter '?' (lit "#") s
  ⟨scheme, authority, path, query, (splitAfter '#' [] s).1⟩

/-! Section 5.2.4: dot segments. -/

/-- The first path segment with its initial `'/'`, if any, up to the next `'/'`. -/
def firstSegment (input : Bytes) : Bytes :=
  match input with
  | [] => []
  | c :: s => c :: (findFirstOf (fun c : Byte => c = '/') s).1

/-- Takes the last segment and its preceding `'/'`, if any, off the output buffer. -/
def dropLastSegment (output : Bytes) : Bytes :=
  match rfind ('/' : Byte) output with
  | some (a, _) => a
  | none => []

/-- Steps 2A to 2E on the input and the output buffer. -/
def removeStep (input output : Bytes) : Bytes × Bytes :=
  if lit "../" <+: input then (input.drop 3, output)
  else if lit "./" <+: input then (input.drop 2, output)
  else if lit "/./" <+: input then (input.drop 2, output)
  else if input = lit "/." then (lit "/", output)
  else if lit "/../" <+: input then (input.drop 3, dropLastSegment output)
  else if input = lit "/.." then (lit "/", dropLastSegment output)
  else if input = lit "." ∨ input = lit ".." then ([], output)
  else (input.drop (firstSegment input).length, output ++ firstSegment input)

@[elab_as_elim] theorem removeStep_cases {input output : Bytes} {motive : Bytes × Bytes → Prop}
    (up : lit "../" <+: input → motive (input.drop 3, output))
    (here : lit "./" <+: input → motive (input.drop 2, output))
    (slashHere : lit "/./" <+: input → motive (input.drop 2, output))
    (slashHereEnd : input = lit "/." → motive (lit "/", output))
    (slashUp : lit "/../" <+: input → motive (input.drop 3, dropLastSegment output))
    (slashUpEnd : input = lit "/.." → motive (lit "/", dropLastSegment output))
    (dots : input = lit "." ∨ input = lit ".." → motive ([], output))
    (move : motive (input.drop (firstSegment input).length, output ++ firstSegment input)) :
    motive (removeStep input output) := by
  unfold removeStep
  split_ifs with h₁ h₂ h₃ h₄ h₅ h₆ h₇
  · exact up h₁
  · exact here h₂
  · exact slashHere h₃
  · exact slashHereEnd h₄
  · exact slashUp h₅
  · exact slashUpEnd h₆
  · exact dots h₇
  · exact move

theorem length_removeStep {input output : Bytes} (h : input ≠ []) :
    (removeStep input output).1.length < input.length := by
  have hlen := List.length_pos_iff.2 h
  have hdrop : ∀ n, 0 < n → (input.drop n).length < input.length := by
    intro n hn
    rw [List.length_drop]
    omega
  refine removeStep_cases ?up ?here ?slashHere ?slashHereEnd ?slashUp ?slashUpEnd ?dots ?move
  case up => exact fun _ => hdrop 3 (by omega)
  case here => exact fun _ => hdrop 2 (by omega)
  case slashHere => exact fun _ => hdrop 2 (by omega)
  case slashHereEnd => exact fun e => e ▸ (by decide : (lit "/").length < (lit "/.").length)
  case slashUp => exact fun _ => hdrop 3 (by omega)
  case slashUpEnd => exact fun e => e ▸ (by decide : (lit "/").length < (lit "/..").length)
  case dots => exact fun _ => hlen
  case move =>
    obtain ⟨c, s, rfl⟩ := List.exists_cons_of_ne_nil h
    exact hdrop _ (Nat.succ_pos _)

/-- Step 2, until the input buffer is empty. -/
def removeLoop (input output : Bytes) : Bytes :=
  if input = [] then output
  else removeLoop (removeStep input output).1 (removeStep input output).2
termination_by input.length
decreasing_by exact length_removeStep ‹_›

def removeDotSegments (path : Bytes) : Bytes := removeLoop path []

theorem removeLoop_nil {output : Bytes} : removeLoop [] output = output := by
  rw [removeLoop, if_pos rfl]

theorem removeLoop_cons {input output : Bytes} (h : input ≠ []) :
    removeLoop input output =
      removeLoop (removeStep input output).1 (removeStep input output).2 := by
  rw [removeLoop, if_neg h]

/-! A rooted path stays rooted, ends as before or in a slash, and gets no new bytes. -/

variable {input output : Bytes}

theorem firstSegment_append : firstSegment input ++ input.drop (firstSegment input).length =
    input ∧ (input.drop (firstSegment input).length = [] ∨
      (input.drop (firstSegment input).length).head? = some ('/' : Byte)) := by
  cases input with
  | nil => simp [firstSegment]
  | cons c s =>
    have happ := Cut.findFirstOf_append (p := fun c : Byte => decide (c = '/')) (s := s)
    have hdrop : s.drop (findFirstOf (fun c : Byte => decide (c = '/')) s).1.length =
        (findFirstOf (fun c : Byte => decide (c = '/')) s).2 :=
      (congrArg (List.drop _) happ.symm).trans List.drop_left
    simp only [firstSegment, List.length_cons, List.drop_succ_cons, hdrop, List.cons_append, happ,
      true_and]
    cases hb : (findFirstOf (fun c : Byte => decide (c = '/')) s).2 with
    | nil => exact .inl rfl
    | cons d b =>
      have := Cut.stop_of_head (p := fun c : Byte => decide (c = '/')) (by rw [hb]; rfl)
      exact .inr (congrArg some (of_decide_eq_true this))

theorem head?_dropLastSegment (h : output = [] ∨ output.head? = some ('/' : Byte)) :
    (dropLastSegment output = [] ∨ (dropLastSegment output).head? = some ('/' : Byte)) ∧
      ∀ x ∈ dropLastSegment output, x ∈ output := by
  unfold dropLastSegment
  cases hr : rfind ('/' : Byte) output with
  | none => exact ⟨.inl rfl, by simp⟩
  | some p =>
    obtain ⟨rfl, -⟩ := Cut.rfind_eq_some.1 hr
    obtain ⟨a, b⟩ := p
    refine ⟨?_, fun x hx => List.mem_append_left _ hx⟩
    cases a with
    | nil => exact .inl rfl
    | cons c a => exact .inr (by simpa using h)

/-- What one step does to a rooted input. -/
theorem removeStep_rooted (h : input.head? = some ('/' : Byte))
    (ho : output = [] ∨ output.head? = some ('/' : Byte)) :
    ((removeStep input output).1 = [] ∧ (removeStep input output).2 = output ++ input) ∨
      (removeStep input output).1.head? = some ('/' : Byte) ∧
        ((removeStep input output).2 = [] ∨
          (removeStep input output).2.head? = some ('/' : Byte)) ∧
        ((removeStep input output).1.getLast? = some ('/' : Byte) ∨
          (removeStep input output).1.getLast? = input.getLast?) ∧
        (∀ x ∈ (removeStep input output).1, x ∈ input) ∧
        ∀ x ∈ (removeStep input output).2, x ∈ input ∨ x ∈ output := by
  obtain ⟨r, rfl⟩ : ∃ r, input = ('/' : Byte) :: r := by
    cases input with
    | nil => simp at h
    | cons c r => exact ⟨r, by simpa using h⟩
  obtain ⟨hhead, hmem⟩ := head?_dropLastSegment ho
  have hdrop : ∀ n, ∀ x ∈ (('/' : Byte) :: r).drop n, x ∈ ('/' : Byte) :: r := fun n x hx =>
    List.mem_of_mem_drop hx
  refine removeStep_cases ?up ?here ?slashHere ?slashHereEnd ?slashUp ?slashUpEnd ?dots ?move
  case up => exact fun h => by simp [lit] at h
  case here => exact fun h => by simp [lit] at h
  case slashHere =>
    rintro ⟨w, hw⟩
    refine .inr ⟨by rw [← hw]; rfl, ho, .inr ?_, hdrop 2, fun x hx => .inr hx⟩
    rw [← hw, List.getLast?_drop, if_neg (by simp [lit])]
  case slashHereEnd =>
    intro h
    exact .inr ⟨rfl, ho, .inl rfl, by simp [lit], fun x hx => .inr hx⟩
  case slashUp =>
    rintro ⟨w, hw⟩
    refine .inr ⟨by rw [← hw]; rfl, hhead, .inr ?_, hdrop 3, fun x hx => .inr (hmem x hx)⟩
    rw [← hw, List.getLast?_drop, if_neg (by simp [lit])]
  case slashUpEnd =>
    intro h
    exact .inr ⟨rfl, hhead, .inl rfl, by simp [lit], fun x hx => .inr (hmem x hx)⟩
  case dots => exact fun h => by simp [lit] at h
  case move =>
    obtain ⟨happ, hrest⟩ := @firstSegment_append (('/' : Byte) :: r)
    obtain hnil | hslash := hrest
    · rw [hnil, List.append_nil] at happ
      exact .inl ⟨hnil, by rw [happ]⟩
    · refine .inr ⟨hslash, .inr ?_, .inr ?_, hdrop _, ?_⟩
      · obtain rfl | ho := ho
        · rfl
        · rw [List.head?_append, ho]
          rfl
      · rw [List.getLast?_drop, if_neg]
        intro hle
        simp [List.drop_eq_nil_of_le hle] at hslash
      · intro x hx
        obtain hx | hx := List.mem_append.1 hx
        · exact .inr hx
        · exact .inl (happ ▸ List.mem_append_left _ hx)

theorem removeLoop_rooted (h : input.head? = some ('/' : Byte))
    (ho : output = [] ∨ output.head? = some ('/' : Byte)) :
    (removeLoop input output).head? = some ('/' : Byte) ∧
      ((removeLoop input output).getLast? = some ('/' : Byte) ∨
        (removeLoop input output).getLast? = input.getLast?) ∧
      ∀ x ∈ removeLoop input output, x ∈ input ∨ x ∈ output := by
  induction input, output using removeLoop.induct with
  | case1 output => simp at h
  | case2 input output hne ih =>
    rw [removeLoop_cons hne]
    obtain ⟨hi, ho'⟩ | ⟨hi, ho', hlast, hmem, hmem'⟩ := removeStep_rooted h ho
    · rw [hi, ho', removeLoop_nil]
      refine ⟨?_, .inr ?_, fun x hx => (List.mem_append.1 hx).symm⟩
      · obtain rfl | ho := ho
        · exact h
        · rw [List.head?_append, ho]
          rfl
      · rw [List.getLast?_append, List.getLast?_eq_some_getLast hne]
        rfl
    · obtain ⟨hhead, hend, hin⟩ := ih hi ho'
      refine ⟨hhead, ?_, fun x hx => ?_⟩
      · obtain hend | hend := hend
        · exact .inl hend
        · rw [hend]
          exact hlast
      · obtain hx | hx := hin x hx
        · exact .inl (hmem x hx)
        · exact hmem' x hx

/-! Section 5.2.3: merging a relative path with the base. -/

def merge (base : Reference) (path : Bytes) : Bytes :=
  if base.authority.isSome ∧ base.path = [] then [('/' : Byte)] ++ path
  else
    match rfind ('/' : Byte) base.path with
    | some (a, _) => a ++ [('/' : Byte)] ++ path
    | none => path

theorem merge_ne_nil {base : Reference} {path : Bytes} (h : path ≠ []) : merge base path ≠ [] := by
  unfold merge
  split_ifs
  · exact List.cons_ne_nil _ _
  · split
    · simp
    · exact h

/-! Section 5.2.2. -/

/-- The path of the target before dot segments are removed, and whether they are. -/
def targetPath (base r : Reference) : Bytes × Bool :=
  if r.scheme.isSome ∨ r.authority.isSome then (r.path, true)
  else if r.path = [] then (base.path, false)
  else if r.path.head? = some ('/' : Byte) then (r.path, true)
  else (merge base r.path, true)

/-- The strict algorithm. -/
def target (base r : Reference) : Reference where
  scheme := if r.scheme.isSome then r.scheme else base.scheme
  authority := if r.scheme.isSome ∨ r.authority.isSome then r.authority else base.authority
  path :=
    let p := targetPath base r
    if p.2 then removeDotSegments p.1 else p.1
  query :=
    if r.scheme.isSome ∨ r.authority.isSome ∨ r.path ≠ [] ∨ r.query.isSome then r.query
    else base.query
  fragment := r.fragment

/-! Section 5.3. -/

namespace Reference

/-- A defined component with its delimiter, or nothing. -/
def schemeText (t : Reference) : Bytes := t.scheme.elim [] (· ++ [(':' : Byte)])

def authorityText (t : Reference) : Bytes := t.authority.elim [] (lit "//" ++ ·)

def queryText (t : Reference) : Bytes := t.query.elim [] ([('?' : Byte)] ++ ·)

def fragmentText (t : Reference) : Bytes := t.fragment.elim [] ([('#' : Byte)] ++ ·)

def dropFragment (t : Reference) : Reference := { t with fragment := none }

variable {t : Reference}

theorem schemeText_eq_nil : t.schemeText = [] ↔ t.scheme = none := by
  cases h : t.scheme <;> simp [schemeText, h]

theorem authorityText_eq_nil : t.authorityText = [] ↔ t.authority = none := by
  cases h : t.authority <;> simp [authorityText, h, lit]

theorem queryText_eq_nil : t.queryText = [] ↔ t.query = none := by
  cases h : t.query <;> simp [queryText, h]

end Reference

def recompose (t : Reference) : Bytes :=
  t.schemeText ++ t.authorityText ++ t.path ++ t.queryText ++ t.fragmentText

/-! What a reference without a scheme takes from the base. -/

section Target

variable {b r : Reference}

theorem schemeText_target (hs : r.scheme = none) : (target b r).schemeText = b.schemeText := by
  simp [target, hs, Reference.schemeText]

theorem authorityText_target (hs : r.scheme = none) (ha : r.authority = none) :
    (target b r).authorityText = b.authorityText := by
  simp [target, hs, ha, Reference.authorityText]

theorem path_target_nil (hs : r.scheme = none) (ha : r.authority = none) (hp : r.path = []) :
    (target b r).path = b.path := by
  simp [target, targetPath, hs, ha, hp]

theorem queryText_target_nil (hs : r.scheme = none) (ha : r.authority = none) (hp : r.path = []) :
    (target b r).queryText = if r.queryText ≠ [] then r.queryText else b.queryText := by
  by_cases hq : r.query = none
  · rw [if_neg (not_not.2 (Reference.queryText_eq_nil.2 hq))]
    simp [target, hs, ha, hp, hq, Reference.queryText]
  · rw [if_pos fun e => hq (Reference.queryText_eq_nil.1 e)]
    simp [target, Option.isSome_iff_ne_none.2 hq, Reference.queryText]

theorem targetPath_merge (hs : r.scheme = none) (ha : r.authority = none) (hp : r.path ≠ []) :
    targetPath b r =
      (if r.path.head? = some ('/' : Byte) then r.path else merge b r.path, true) := by
  simp only [targetPath, hs, ha, Option.isSome_none, Bool.false_eq_true, or_self, if_false, hp]
  split_ifs <;> rfl

theorem queryText_target (hp : r.path ≠ []) : (target b r).queryText = r.queryText := by
  simp [target, hp, Reference.queryText]

/-- A reference with an authority takes nothing else. -/
theorem tail_target (ha : r.authority ≠ none) :
    (target b r).authorityText ++ ((target b r).path ++ (target b r).queryText) =
      r.authorityText ++ removeDotSegments r.path ++ r.queryText := by
  have hsome : r.authority.isSome = true := Option.isSome_iff_ne_none.2 ha
  simp [target, targetPath, hsome, Reference.authorityText, Reference.queryText]

end Target

end Jkl.Uri.Rfc3986
