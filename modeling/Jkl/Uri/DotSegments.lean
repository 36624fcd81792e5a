import Jkl.Lib.Copy
import Jkl.Lib.Loop
import Jkl.Uri.Codec

/-! Dot segments removed inside one buffer, which holds what is left of the input and, to the
left of it, the output. -/
namespace Jkl.Uri

open Copy (moveLeft length_moveLeft)
open Cut (find find_eq_some)
open Loop (Turn)

/-- The bytes from `out` to the end of `in`; `op` is where output goes and `ip` where `in`
starts, both counted from `out`. -/
structure DotState where
  buf : Bytes
  op : ℕ
  ip : ℕ
deriving DecidableEq

namespace DotState

/-- `in`. -/
def rest (s : DotState) : Bytes := s.buf.drop s.ip

/-- What is between `out` and `op`. -/
def done (s : DotState) : Bytes := s.buf.take s.op

end DotState

/-- `while(op > out) { --op; if(*op == '/') break; }` -/
def backToSlash (buf : Bytes) : ℕ → ℕ
  | 0 => 0
  | op + 1 => if buf[op]? = some ('/' : Byte) then op else backToSlash buf op

/-- `in.find('/', 1)`. -/
def findSlash (s : Bytes) : Option ℕ := (find ('/' : Byte) s.tail).map fun p => p.1.length + 1

/-- The last branch: the first segment of the input moves to the end of the output. The first
`'/'` is skipped while a relative path has put nothing out. -/
def moveSegment (isRel : Bool) (s : DotState) : DotState :=
  let i := s.rest
  let pos := if isRel ∧ s.op = 0 ∧ i.head? = some ('/' : Byte) then 1 else 0
  if pos ≠ 0 ∨ s.op ≠ s.ip then
    -- `string_view::copy` takes at most what there is from `pos` on
    let n := min ((findSlash i).getD i.length) (i.length - pos)
    ⟨moveLeft s.buf s.op (s.ip + pos) n, s.op + n, s.ip + n + pos⟩
  else
    let q := (findSlash i).getD i.length
    { s with op := s.op + q, ip := s.ip + q }

/-- One turn of the loop body. Only the branch for an input of `"."` or `".."` breaks. -/
def dotBody (isRel : Bool) (s : DotState) : Turn DotState DotState :=
  let i := s.rest
  if lit "./" <+: i then .next { s with ip := s.ip + 2 }
  else if lit "../" <+: i then .next { s with ip := s.ip + 3 }
  else if lit "/./" <+: i then .next { s with ip := s.ip + 2 }
  else if i = lit "/." then
    .next { s with buf := s.buf.set (s.ip + 1) '/', ip := s.ip + 1 }
  else if lit "/../" <+: i then
    .next { s with op := backToSlash s.buf s.op, ip := s.ip + 3 }
  else if i = lit "/.." then
    let buf := s.buf.set (s.ip + 2) '/'
    .next ⟨buf, backToSlash buf s.op, s.ip + 2⟩
  else if i = lit "." ∨ i = lit ".." then .done { s with op := 0 }
  else .next (moveSegment isRel s)

/-- `do … while(in.size())`. -/
def dotTurn (isRel : Bool) (s : DotState) : Turn DotState DotState :=
  match dotBody isRel s with
  | .next s' => if s'.rest = [] then .done s' else .next s'
  | .done s' => .done s'

variable {isRel : Bool} {s s' : DotState} {i : Bytes}

theorem findSlash_le (h : i ≠ []) :
    0 < (findSlash i).getD i.length ∧ (findSlash i).getD i.length ≤ i.length := by
  have hlen := List.length_pos_iff.2 h
  unfold findSlash
  cases hf : find ('/' : Byte) i.tail with
  | none => simpa using hlen
  | some q =>
    have := congrArg List.length (find_eq_some.1 hf).1
    simp only [List.length_tail, List.length_append, List.length_cons] at this
    simp only [Option.map_some, Option.getD_some]
    omega

theorem moveSegment_spec (hs : s.rest ≠ []) :
    s.ip < (moveSegment isRel s).ip ∧ (moveSegment isRel s).buf.length = s.buf.length := by
  obtain ⟨hpos, hle⟩ := findSlash_le hs
  unfold moveSegment
  dsimp only
  split_ifs <;> refine ⟨?_, by simp⟩ <;> dsimp only <;> omega

theorem moveSegment_nil (hs : s.rest = []) : moveSegment isRel s = s := by
  simp [moveSegment, hs, findSlash, find, moveLeft]

theorem dotBody_nil (hs : s.rest = []) : dotBody isRel s = .next s := by
  simp [dotBody, hs, moveSegment_nil hs, lit]

/-- Every turn takes something off the input, and none changes the size of the buffer. -/
theorem dotBody_spec (h : dotBody isRel s = .next s') (hs : s.rest ≠ []) :
    s.ip < s'.ip ∧ s'.buf.length = s.buf.length := by
  unfold dotBody at h
  dsimp only at h
  split_ifs at h <;> simp only [Turn.next.injEq] at h <;> subst h
  · exact ⟨Nat.lt_add_of_pos_right Nat.two_pos, rfl⟩
  · exact ⟨Nat.lt_add_of_pos_right (Nat.succ_pos 2), rfl⟩
  · exact ⟨Nat.lt_add_of_pos_right Nat.two_pos, rfl⟩
  · exact ⟨Nat.lt_succ_self _, List.length_set⟩
  · exact ⟨Nat.lt_add_of_pos_right (Nat.succ_pos 2), rfl⟩
  · exact ⟨Nat.lt_add_of_pos_right Nat.two_pos, List.length_set⟩
  · exact moveSegment_spec hs

theorem dotTurn_lt (h : dotTurn isRel s = .next s') :
    s'.buf.length - s'.ip < s.buf.length - s.ip := by
  unfold dotTurn at h
  split at h
  · next t ht =>
    split_ifs at h with hrest
    cases h
    have hs : s.rest ≠ [] := by
      intro hs
      rw [dotBody_nil hs] at ht
      cases ht
      exact hrest hs
    obtain ⟨hip, hlen⟩ := dotBody_spec ht hs
    have hlt : s'.ip < s'.buf.length := by
      by_contra hge
      exact hrest (List.drop_eq_nil_of_le (by omega))
    omega
  · cases h

theorem dotLoop_isSome (isRel : Bool) (buf : Bytes) :
    (Loop.run (dotTurn isRel) (buf.length + 1) ⟨buf, 0, 0⟩).isSome = true :=
  Loop.run_isSome (fun s => s.buf.length - s.ip) (fun _ _ => dotTurn_lt) (Nat.lt_succ_self _)

/-- Where the loop leaves a buffer that is all input at first. -/
def dotLoop (isRel : Bool) (buf : Bytes) : DotState :=
  (Loop.run (dotTurn isRel) (buf.length + 1) ⟨buf, 0, 0⟩).get (dotLoop_isSome isRel buf)

theorem ends_dotLoop {buf : Bytes} :
    Loop.Ends (dotTurn isRel) ⟨buf, 0, 0⟩ (dotLoop isRel buf) :=
  Loop.ends_of_run (Option.some_get _).symm

theorem length_of_dotBody (h : dotBody isRel s = .next s' ∨ dotBody isRel s = .done s') :
    s'.buf.length = s.buf.length := by
  obtain h | h := h
  · by_cases hs : s.rest = []
    · rw [dotBody_nil hs] at h
      rw [Turn.next.inj h]
    · exact (dotBody_spec h hs).2
  · unfold dotBody at h
    dsimp only at h
    split_ifs at h
    rw [← Turn.done.inj h]

theorem length_of_dotTurn (h : dotTurn isRel s = .next s' ∨ dotTurn isRel s = .done s') :
    s'.buf.length = s.buf.length := by
  unfold dotTurn at h
  split at h
  · next t ht =>
    obtain h | h := h
    · split_ifs at h
      rw [← Turn.next.inj h, length_of_dotBody (.inl ht)]
    · split_ifs at h
      rw [← Turn.done.inj h, length_of_dotBody (.inl ht)]
  · next t ht =>
    obtain h | h := h
    · cases h
    · rw [← Turn.done.inj h, length_of_dotBody (.inr ht)]

theorem length_dotLoop {buf : Bytes} : (dotLoop isRel buf).buf.length = buf.length := by
  refine ends_dotLoop.invariant (fun s => s.buf.length = buf.length)
    (fun s => s.buf.length = buf.length) rfl ?_ ?_
  · intro s s' hs h
    rw [length_of_dotTurn (.inl h), hs]
  · intro s r hs h
    rw [length_of_dotTurn (.inr h), hs]

/-! What is appended. -/

def isRelative (path : Bytes) : Bool := path.head? ≠ some ('/' : Byte)

/-- The loop on what has been appended. -/
def removeDots (isRel : Bool) (o : Out) : Out :=
  match o.stop with
  | some _ => o
  | none =>
    ⟨(dotLoop isRel o.text).done, o.peak, none, by
      have := o.le_peak
      have : (dotLoop isRel o.text).buf.length = o.text.length := length_dotLoop
      simp only [DotState.done, List.length_take]
      omega⟩

/-- `uri_remove_dot_segments_append<DestCodec>` into another buffer. -/
def removeDotSegmentsAppend (asserts : Bool) (t : Tag) (dest codec : Codec) (path : Bytes) : Out :=
  if path = [] then .ok []
  else removeDots (isRelative path) (codecCvtAppend asserts t dest codec path)

/-- `uri_remove_dot_segments_inplace`. -/
def removeDotSegmentsInplace (o : Out) : Out :=
  if o.text = [] then o else removeDots (isRelative o.text) o

end Jkl.Uri
