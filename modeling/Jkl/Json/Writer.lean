import Jkl.Json.Write
import Jkl.Uri.Comp

/-! `json_writer`: objects and arrays at the end of a buffer. A comma follows every value, and the
destructor puts the closing bracket in place of the last one. -/
namespace Jkl.Json

open JsonText (Text literal)
open Jkl.Pb (CInt)
open Jkl.Uri (Num)

/-- The instance of the template, and whether assertions are compiled in. -/
structure WriterType where
  buf : BufType
  keyNoEscape : Bool
  asserts : Bool

/-- The two pairs of brackets a writer is made with. -/
inductive Brackets where
  | obj
  | arr
deriving DecidableEq

namespace Brackets

def openCh : Brackets → UInt8
  | obj => '{'
  | arr => '['

def closeCh : Brackets → UInt8
  | obj => '}'
  | arr => ']'

end Brackets

/-- A writer that is alive; `_b` is passed along. -/
structure Writer where
  brackets : Brackets
  hasParent : Bool
  initPos : ℕ

/-! Values and keys. -/

inductive Prim where
  | null
  | bool (v : Bool)
  | int (ty : CInt) (n : ℤ) (h : ty ≠ .bool ∧ ty.InRange n)
  | str (v : Clean)
  /-- `jnoescape(v)`. -/
  | noescape (v : Clean)

/-- A key, maybe as `jnoescape(k)`. -/
structure Key where
  text : Clean
  noescape : Bool

variable (W : WriterType)

def val (b : Text) : Prim → Except WriteFault Text
  | .null => W.buf.append b (literal "null")
  | .bool v => W.buf.append b (if v then literal "true" else literal "false")
  | .int ty n h =>
    if (Num.stringify W.asserts (.int ty n h)).stop = none then
      W.buf.append b (Num.stringify W.asserts (.int ty n h)).text
    else .error .assertion
  | .str v => writeJstr W.buf b v
  | .noescape v => writeJstrNoescape W.buf b v

def endVal (b : Text) : Except WriteFault Text := W.buf.append b [(',' : UInt8)]

def elm (b : Text) (v : Prim) : Except WriteFault Text := do
  let b ← val W b v
  endVal W b

/-- `if(KeyNoEscape) str_noescape(k); else val(k);` -/
def key (b : Text) (k : Key) : Except WriteFault Text :=
  if W.keyNoEscape then writeJstrNoescape W.buf b k.text
  else val W b (if k.noescape then .noescape k.text else .str k.text)

def beginPa (b : Text) (k : Key) : Except WriteFault Text := do
  let b ← key W b k
  W.buf.append b [(':' : UInt8)]

def pa (b : Text) (k : Key) (v : Prim) : Except WriteFault Text := do
  let b ← key W b k
  let b ← W.buf.append b [(':' : UInt8)]
  let b ← val W b v
  endVal W b

/-- The constructors; `HasParent` is a template argument. -/
def construct (b : Text) (brackets : Brackets) (hasParent : Bool) :
    Except WriteFault (Writer × Text) := do
  let b' ← W.buf.append b [brackets.openCh]
  return (⟨brackets, hasParent, b.length⟩, b')

/-- `~json_writer`. -/
def destroy (w : Writer) (b : Text) : Except WriteFault Text := do
  let b' ←
    if b.length > w.initPos + 1 then .ok (b.set (b.length - 1) w.brackets.closeCh)
    else W.buf.append b [w.brackets.closeCh]
  if w.hasParent then W.buf.append b' [(',' : UInt8)] else .ok b'

/-- `add_jobj` and `add_jarr` of an object. -/
def addToObj (b : Text) (k : Key) (brackets : Brackets) : Except WriteFault (Writer × Text) := do
  let b ← beginPa W b k
  construct W b brackets true

/-- `add_jobj` and `add_jarr` of an array. -/
def addToArr (b : Text) (brackets : Brackets) : Except WriteFault (Writer × Text) :=
  construct W b brackets true

/-! Trees of writers. A child is destroyed before its parent is used again. -/

mutual
inductive Node where
  | obj (ms : Members)
  | arr (es : Elems)
inductive Members where
  | nil
  | pa (k : Key) (v : Prim) (ms : Members)
  | add (k : Key) (t : Node) (ms : Members)
inductive Elems where
  | nil
  | elm (v : Prim) (es : Elems)
  | add (t : Node) (es : Elems)
end

def Node.brackets : Node → Brackets
  | .obj _ => .obj
  | .arr _ => .arr

mutual
/-- What is done with a writer until it is destroyed. -/
def fillNode (b : Text) : Node → Except WriteFault Text
  | .obj ms => fillMembers b ms
  | .arr es => fillElems b es
def fillMembers (b : Text) : Members → Except WriteFault Text
  | .nil => .ok b
  | .pa k v ms => do
    let b ← pa W b k v
    fillMembers b ms
  | .add k t ms => do
    let (w, b) ← addToObj W b k t.brackets
    let b ← fillNode b t
    let b ← destroy W w b
    fillMembers b ms
def fillElems (b : Text) : Elems → Except WriteFault Text
  | .nil => .ok b
  | .elm v es => do
    let b ← elm W b v
    fillElems b es
  | .add t es => do
    let (w, b) ← addToArr W b t.brackets
    let b ← fillNode b t
    let b ← destroy W w b
    fillElems b es
end

/-- From `make_jobj_writer` or `make_jarr_writer` to the end of the root. -/
def writeTree (b : Text) (t : Node) : Except WriteFault Text := do
  let (w, b) ← construct W b t.brackets false
  let b ← fillNode W b t
  destroy W w b

/-! What the calls append. -/

namespace Prim

def text : Prim → Text
  | null => literal "null"
  | bool v => if v then literal "true" else literal "false"
  | int ty n h => (Num.int ty n h).text
  | str v => quoted v
  | noescape v => quoted v

/-- A string that is not given as `jnoescape` goes through `write_jstr`, and `stringify` asserts
that an integer leaves a byte of its storage free. -/
def Writable (W : WriterType) : Prim → Prop
  | str _ => False
  | int ty n h => W.asserts → (Num.int ty n h).text.length < (Num.int ty n h).maxStringifySize
  | _ => True

end Prim

def Key.Writable (W : WriterType) (k : Key) : Prop := W.keyNoEscape = true ∨ k.noescape = true

mutual
def Node.text : Node → Text
  | .obj ms => ('{' : UInt8) :: (ms.text.dropLast ++ [('}' : UInt8)])
  | .arr es => ('[' : UInt8) :: (es.text.dropLast ++ [(']' : UInt8)])
/-- Each member with a comma behind it. -/
def Members.text : Members → Text
  | .nil => []
  | .pa k v ms => quoted k.text ++ (':' : UInt8) :: (v.text ++ (',' : UInt8) :: ms.text)
  | .add k t ms => quoted k.text ++ (':' : UInt8) :: (t.text ++ (',' : UInt8) :: ms.text)
def Elems.text : Elems → Text
  | .nil => []
  | .elm v es => v.text ++ (',' : UInt8) :: es.text
  | .add t es => t.text ++ (',' : UInt8) :: es.text
end

def Node.body : Node → Text
  | .obj ms => ms.text
  | .arr es => es.text

mutual
def Node.Writable (W : WriterType) : Node → Prop
  | .obj ms => ms.Writable W
  | .arr es => es.Writable W
def Members.Writable (W : WriterType) : Members → Prop
  | .nil => True
  | .pa k v ms => k.Writable W ∧ v.Writable W ∧ ms.Writable W
  | .add k t ms => k.Writable W ∧ t.Writable W ∧ ms.Writable W
def Elems.Writable (W : WriterType) : Elems → Prop
  | .nil => True
  | .elm v es => v.Writable W ∧ es.Writable W
  | .add t es => t.Writable W ∧ es.Writable W
end

/-- On a buffer that is no larger than it may be, the call appends the text if the condition holds
and there is room, and fails otherwise. -/
def Puts (W : WriterType) (p : Prop) (text : Text) (f : Text → Except WriteFault Text) : Prop :=
  ∀ b b', b.length ≤ W.buf.maxSize →
    (f b = .ok b' ↔ p ∧ b.length + text.length ≤ W.buf.maxSize ∧ b' = b ++ text)

variable {W} {p q : Prop} {x y : Text} {f g : Text → Except WriteFault Text}

theorem puts_append : Puts W True x (W.buf.append · x) := by
  intro b b' _
  change W.buf.append b x = .ok b' ↔ _
  unfold BufType.append
  split_ifs with h
  · simp [h, eq_comm]
  · simp [h]

theorem puts_noescape (v : Text) : Puts W True (quoted v) (writeJstrNoescape W.buf · v) := by
  intro b b' _
  rw [writeJstrNoescape_eq_ok, true_and]

theorem puts_nil : Puts W True [] .ok := by
  intro b b' hb
  simp [hb, eq_comm]

theorem puts_false (h : ∀ b b', f b ≠ .ok b') : Puts W False x f := by
  intro b b' _
  simp [h b b']

theorem Puts.bind (hf : Puts W p x f) (hg : Puts W q y g) :
    Puts W (p ∧ q) (x ++ y) fun b => f b >>= g := by
  intro b b' hb
  rw [bind_eq_ok, List.length_append]
  constructor
  · rintro ⟨a, hfa, hga⟩
    obtain ⟨hp, hx, rfl⟩ := (hf b a hb).1 hfa
    rw [← List.length_append] at hx
    obtain ⟨hq, hy, rfl⟩ := (hg _ b' hx).1 hga
    rw [List.length_append] at hy
    exact ⟨⟨hp, hq⟩, by omega, List.append_assoc _ _ _⟩
  · rintro ⟨⟨hp, hq⟩, hroom, rfl⟩
    have hx : b.length + x.length ≤ W.buf.maxSize := by omega
    have hx' : (b ++ x).length ≤ W.buf.maxSize := by rwa [List.length_append]
    refine ⟨b ++ x, (hf b _ hb).2 ⟨hp, hx, rfl⟩, (hg _ _ hx').2 ⟨hq, ?_, ?_⟩⟩
    · rw [List.length_append]
      omega
    · rw [List.append_assoc]

theorem Puts.congr (hf : Puts W p x f) (hp : p ↔ q) (hx : x = y) (hg : ∀ b, g b = f b) :
    Puts W q y g := by
  intro b b' hb
  rw [hg, hf b b' hb, hp, hx]

/-! The calls. -/

theorem puts_val (v : Prim) : Puts W (v.Writable W) v.text (val W · v) := by
  cases v with
  | null => exact puts_append
  | bool v => exact puts_append
  | int ty n h =>
    by_cases hfits : Prim.Writable W (.int ty n h)
    · have hok : Num.stringify W.asserts (.int ty n h) = .ok (Num.text (.int ty n h)) :=
        if_neg fun hfull => Nat.not_lt.2 hfull.2 (hfits hfull.1)
      refine puts_append.congr (iff_of_true trivial hfits) rfl fun b => ?_
      simp only [val, hok]
      exact if_pos rfl
    · have hhalt : Num.stringify W.asserts (.int ty n h) = .halt .assertion :=
        if_pos (by simpa [Prim.Writable] using hfits)
      refine (puts_false fun b b' => ?_).congr (iff_of_false id hfits) rfl fun b => rfl
      simp only [val, hhalt]
      exact fun hc => by cases hc
  | str v => exact puts_false fun b b' => writeJstr_ne_ok
  | noescape v => exact puts_noescape v

theorem puts_endVal : Puts W True [(',' : UInt8)] (endVal W) := puts_append

theorem puts_elm (v : Prim) : Puts W (v.Writable W) (v.text ++ [(',' : UInt8)]) (elm W · v) :=
  ((puts_val v).bind puts_endVal).congr (and_iff_left trivial) rfl fun _ => rfl

theorem puts_key (k : Key) : Puts W (k.Writable W) (quoted k.text) (key W · k) := by
  unfold key Key.Writable
  cases hk : W.keyNoEscape with
  | true => exact (puts_noescape k.text.1).congr (by simp) rfl fun b => by simp
  | false =>
    cases hn : k.noescape with
    | true =>
      exact (puts_val (.noescape k.text)).congr (by simp [Prim.Writable]) rfl fun b => by simp
    | false =>
      exact (puts_val (.str k.text)).congr (by simp [Prim.Writable]) rfl fun b => by simp

theorem puts_beginPa (k : Key) :
    Puts W (k.Writable W) (quoted k.text ++ [(':' : UInt8)]) (beginPa W · k) :=
  ((puts_key k).bind puts_append).congr (and_iff_left trivial) rfl fun _ => rfl

theorem puts_pa (k : Key) (v : Prim) : Puts W (k.Writable W ∧ v.Writable W)
    (quoted k.text ++ (':' : UInt8) :: (v.text ++ [(',' : UInt8)])) (pa W · k v) := by
  refine ((puts_beginPa k).bind (puts_elm v)).congr Iff.rfl (by simp) fun b => ?_
  simp only [pa, beginPa, elm, bind_assoc]

/-! A writer, from its constructor to its destructor. -/

/-- What is written into a writer: nothing, or text with a comma behind it. -/
def EndsElem (s : Text) : Prop := s = [] ∨ ∃ t, s = t ++ [(',' : UInt8)]

/-- A writer that is made, filled and destroyed. -/
def withWriter (W : WriterType) (brackets : Brackets) (hasParent : Bool)
    (fill : Text → Except WriteFault Text) (b : Text) : Except WriteFault Text := do
  let (w, b) ← construct W b brackets hasParent
  let b ← fill b
  destroy W w b

/-- Between brackets, without the last comma. -/
def enclosed (brackets : Brackets) (body : Text) : Text :=
  brackets.openCh :: (body.dropLast ++ [brackets.closeCh])

/-- The comma of a child. -/
def behind (hasParent : Bool) : Text := if hasParent then [(',' : UInt8)] else []

theorem puts_behind (hasParent : Bool) : Puts W True (behind hasParent)
    fun b => if hasParent then W.buf.append b [(',' : UInt8)] else .ok b := by
  cases hasParent with
  | true => exact puts_append
  | false => exact puts_nil

theorem set_last {l : Text} {c d : UInt8} :
    (l ++ [c]).set ((l ++ [c]).length - 1) d = l ++ [d] := by
  simp

/-- The closing bracket takes the place of the last comma, or follows the opening one. -/
theorem destroy_eq_ok {brackets : Brackets} {hasParent : Bool} {b b' body : Text}
    (hbody : EndsElem body) (hroom : (b ++ brackets.openCh :: body).length ≤ W.buf.maxSize) :
    destroy W ⟨brackets, hasParent, b.length⟩ (b ++ brackets.openCh :: body) = .ok b' ↔
      b.length + (enclosed brackets body ++ behind hasParent).length ≤ W.buf.maxSize ∧
        b' = b ++ (enclosed brackets body ++ behind hasParent) := by
  obtain rfl | ⟨t, rfl⟩ := hbody
  · have hputs := (puts_append (W := W) (x := [brackets.closeCh])).bind (puts_behind hasParent)
    have hlen : ¬(b ++ [brackets.openCh]).length > b.length + 1 := by simp
    have henclosed : enclosed brackets [] = [brackets.openCh] ++ [brackets.closeCh] := rfl
    unfold destroy
    rw [if_neg hlen]
    refine (hputs _ b' hroom).trans ?_
    rw [henclosed, and_self_iff, true_and, List.length_append, List.length_append,
      List.length_append, List.length_append, List.append_assoc, List.append_assoc, Nat.add_assoc]
    simp only [Nat.add_assoc]
  · have hputs := puts_behind (W := W) hasParent
    have hlen : (b ++ brackets.openCh :: (t ++ [(',' : UInt8)])).length > b.length + 1 := by simp
    have hset : (b ++ brackets.openCh :: (t ++ [(',' : UInt8)])).set
        ((b ++ brackets.openCh :: (t ++ [(',' : UInt8)])).length - 1) brackets.closeCh =
        b ++ enclosed brackets (t ++ [(',' : UInt8)]) := by
      have hsplit : b ++ brackets.openCh :: (t ++ [(',' : UInt8)]) =
          (b ++ brackets.openCh :: t) ++ [(',' : UInt8)] := by simp
      rw [hsplit, set_last, enclosed, List.dropLast_concat, List.append_assoc, List.cons_append]
    unfold destroy
    rw [if_pos hlen, hset]
    have hsize : (b ++ enclosed brackets (t ++ [(',' : UInt8)])).length ≤ W.buf.maxSize := by
      rw [← hset, List.length_set]
      exact hroom
    refine (hputs _ b' hsize).trans ?_
    rw [true_and, List.length_append, List.length_append, List.append_assoc, Nat.add_assoc]

theorem puts_withWriter {body : Text} {fill : Text → Except WriteFault Text}
    (brackets : Brackets) (hasParent : Bool) (hfill : Puts W p body fill)
    (hbody : EndsElem body) :
    Puts W p (enclosed brackets body ++ behind hasParent)
      (withWriter W brackets hasParent fill) := by
  intro b b' hb
  have hopen := (puts_append (W := W) (x := [brackets.openCh])).bind hfill
  have hsteps : withWriter W brackets hasParent fill b =
      (W.buf.append b [brackets.openCh] >>= fill) >>=
        destroy W ⟨brackets, hasParent, b.length⟩ := by
    simp only [withWriter, construct, bind_assoc, pure_bind]
  rw [hsteps, bind_eq_ok]
  constructor
  · rintro ⟨b₁, h₁, hdestroy⟩
    obtain ⟨⟨-, hp⟩, hroom, rfl⟩ := (hopen b b₁ hb).1 h₁
    rw [← List.length_append] at hroom
    exact ⟨hp, (destroy_eq_ok hbody hroom).1 hdestroy⟩
  · rintro ⟨hp, hroom, rfl⟩
    have hlen : ([brackets.openCh] ++ body).length ≤ (enclosed brackets body).length := by
      simp only [enclosed, List.length_append, List.length_cons, List.length_dropLast]
      simp
      omega
    have hroom' : b.length + ([brackets.openCh] ++ body).length ≤ W.buf.maxSize := by
      rw [List.length_append] at hroom
      omega
    refine ⟨_, (hopen b _ hb).2 ⟨⟨trivial, hp⟩, hroom', rfl⟩, ?_⟩
    rw [← List.length_append] at hroom'
    exact (destroy_eq_ok hbody hroom').2 ⟨hroom, rfl⟩

/-! Trees. -/

theorem endsElem_cons (h : EndsElem y) : EndsElem (x ++ (',' : UInt8) :: y) := by
  obtain rfl | ⟨t, rfl⟩ := h
  · exact .inr ⟨x, rfl⟩
  · exact .inr ⟨x ++ (',' : UInt8) :: t, by simp⟩

theorem endsElem_members : (ms : Members) → EndsElem ms.text
  | .nil => .inl rfl
  | .pa k v ms => by
    have h := endsElem_cons (x := quoted k.text ++ (':' : UInt8) :: v.text) (endsElem_members ms)
    rwa [List.append_assoc, List.cons_append] at h
  | .add k t ms => by
    have h := endsElem_cons (x := quoted k.text ++ (':' : UInt8) :: t.text) (endsElem_members ms)
    rwa [List.append_assoc, List.cons_append] at h

theorem endsElem_elems : (es : Elems) → EndsElem es.text
  | .nil => .inl rfl
  | .elm _ es => endsElem_cons (endsElem_elems es)
  | .add _ es => endsElem_cons (endsElem_elems es)

theorem endsElem_body (t : Node) : EndsElem t.body := by
  cases t with
  | obj ms => exact endsElem_members ms
  | arr es => exact endsElem_elems es

theorem enclosed_body (t : Node) : enclosed t.brackets t.body = t.text := by
  cases t with
  | obj ms => rw [Node.text]; rfl
  | arr es => rw [Node.text]; rfl

mutual
theorem puts_fillNode : (t : Node) → Puts W (t.Writable W) t.body (fillNode W · t)
  | .obj ms => (puts_fillMembers ms).congr (by rw [Node.Writable]) rfl fun b => by rw [fillNode]
  | .arr es => (puts_fillElems es).congr (by rw [Node.Writable]) rfl fun b => by rw [fillNode]
theorem puts_fillMembers : (ms : Members) → Puts W (ms.Writable W) ms.text (fillMembers W · ms)
  | .nil => puts_nil.congr (by rw [Members.Writable]) (by rw [Members.text]) fun b => by
      rw [fillMembers]
  | .pa k v ms => by
    refine ((puts_pa k v).bind (puts_fillMembers ms)).congr ?_ ?_ fun b => ?_
    · rw [Members.Writable, and_assoc]
    · rw [Members.text]
      simp
    · rw [fillMembers]
  | .add k t ms => by
    have hchild := puts_withWriter t.brackets true (puts_fillNode t) (endsElem_body t)
    refine ((puts_beginPa k).bind (hchild.bind (puts_fillMembers ms))).congr ?_ ?_ fun b => ?_
    · rw [Members.Writable]
    · rw [Members.text, enclosed_body]
      simp [behind]
    · rw [fillMembers]
      simp only [addToObj, withWriter, bind_assoc]
theorem puts_fillElems : (es : Elems) → Puts W (es.Writable W) es.text (fillElems W · es)
  | .nil => puts_nil.congr (by rw [Elems.Writable]) (by rw [Elems.text]) fun b => by
      rw [fillElems]
  | .elm v es => by
    refine ((puts_elm v).bind (puts_fillElems es)).congr ?_ ?_ fun b => ?_
    · rw [Elems.Writable]
    · rw [Elems.text]
      simp
    · rw [fillElems]
  | .add t es => by
    have hchild := puts_withWriter t.brackets true (puts_fillNode t) (endsElem_body t)
    refine (hchild.bind (puts_fillElems es)).congr ?_ ?_ fun b => ?_
    · rw [Elems.Writable]
    · rw [Elems.text, enclosed_body]
      simp [behind]
    · rw [fillElems]
      simp only [addToArr, withWriter, bind_assoc]
end

theorem puts_writeTree (t : Node) : Puts W (t.Writable W) t.text (writeTree W · t) := by
  have hroot := puts_withWriter t.brackets false (puts_fillNode (W := W) t) (endsElem_body t)
  refine hroot.congr Iff.rfl ?_ fun b => rfl
  rw [enclosed_body, behind, if_neg Bool.false_ne_true, List.append_nil]

end Jkl.Json
