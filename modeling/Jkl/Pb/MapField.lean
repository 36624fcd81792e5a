import Jkl.Pb.Fates

/-! `pb_map` against the message it stands for,
`message map_entry { optional key_type key = 1; optional value_type value = 2; }`. -/
namespace Jkl.Pb
open Base128

/-- `p` is a payload that is read to `v`, wherever it stands. -/
def Payload (read : Reader) (u : Val) (p : List UInt8) (v : Val) : Prop :=
  ∀ x lim, p.length ≤ lim → read (p ++ x) lim u = .ok p.length v

namespace Fld

/-- The member of a new struct. -/
def freshMember (f : Fld) : Val := if f.inOptional then .none else f.freshVal

/-- What a field that is not on the wire is to be: what it is cleared to, or its new value. -/
def default (f : Fld) : Val :=
  if f.isOptional then f.clearVal f.freshMember else f.freshMember

/-- The `p_check` of the field, if it has one, lets the struct pass. -/
def Accepts (f : Fld) (d : List Val) : Prop :=
  ∀ c, f.params.pCheck = some c → c.validate d = none

/-- What a payload stands for by the wire format. A message stands for what is read from it,
wherever it stands. -/
def Means (m : Machine) : Fld → List UInt8 → Val → Prop
  | varint _ ty c p, q, v =>
    v = p.wrap (.int (c.cast (varintVal ty.zigzag ty.tar (value q))))
  | fixed _ ty c p, q, v => v = p.wrap (.int (c.cast (loadLe ty.tar q)))
  | bytes _ b p, q, v =>
    Delimited (fun body => v = if p.pOptional && !b.plain then .some (.bytes body) else .bytes body)
      q
  | f, q, v => Payload (f.reader m) f.freshMember q v

/-- The payload is one of the field's type: a number of its width, of which a bool has one byte, a
text of a length that the buffer takes, a message that is read. -/
def Takes (m : Machine) : Fld → List UInt8 → Prop
  | varint _ ty _ _, q =>
    if ty.tar = .bool then q.length = 1 else Numeral (varintUintBits ty.zigzag ty.tar) q
  | fixed .., _ => True
  | bytes _ b _, q => Delimited (fun body => b.accepts body.length = true) q
  | f, q => ∃ v, Payload (f.reader m) f.freshMember q v

/-- What a field stands for that is `o` on the wire, or `d` if it is not there. -/
def Stands (m : Machine) (f : Fld) (d : Val) : Option (List UInt8) → Val → Prop
  | none, v => v = d
  | some q, v => f.Means m q v

end Fld

/-- What a map field is bound to: a map, or a sequence of pairs. -/
inductive PairContainer where
  | map (order : Sorted.Order Val)
  | vec (buf : Bool)

def PairContainer.container : PairContainer → Container
  | map order => .map order
  | vec buf => .vec buf

/-- `pb_map_fld`, with the static assertions that a read rests on. -/
structure MapField where
  id : ℕ
  key : Fld
  value : Fld
  pairs : PairContainer
  params : Params
  keyId : key.id = 1
  valueId : value.id = 2
  keySingle : key.isSingle = true
  valueSingle : value.isSingle = true

namespace MapField

variable (M : MapField) {m : Machine}

/-- `map_entry`. -/
def entry : Fld := .message M.id .null [M.key, M.value]

def fld : Fld := .repeated M.entry M.pairs.container M.params

/-- The `switch` of an entry. -/
def cases (m : Machine) : List Case :=
  [⟨M.key.tag, 0, M.key.reader m⟩, ⟨M.value.tag, 1, M.value.reader m⟩]

/-- Records with at most one key and at most one value among fields that are neither, and the
payloads of the two. -/
inductive Carries : List Rec → Option (List UInt8) → Option (List UInt8) → Prop where
  | nil : Carries [] none none
  | key {r : Rec} {rs : List Rec} {ov : Option (List UInt8)} (htag : r.tag = M.key.tag)
      (h : Carries rs none ov) : Carries (r :: rs) (some r.payload) ov
  | value {r : Rec} {rs : List Rec} {ok : Option (List UInt8)} (htag : r.tag = M.value.tag)
      (h : Carries rs ok none) : Carries (r :: rs) ok (some r.payload)
  | unknown {r : Rec} {rs : List Rec} {ok ov : Option (List UInt8)} (hk : r.tag ≠ M.key.tag)
      (hv : r.tag ≠ M.value.tag) (h : Carries rs ok ov) : Carries (r :: rs) ok ov

/-- The payload of an entry. -/
structure Entry where
  lenBytes : List UInt8
  recs : List Rec
  key : Option (List UInt8)
  value : Option (List UInt8)
  numeral : Numeral 32 lenBytes
  len : Base128.value lenBytes = (Rec.join recs).length
  carries : M.Carries recs key value

namespace Entry

variable {M}

def bytes (e : M.Entry) : List UInt8 := e.lenBytes ++ Rec.join e.recs

/-- The key and the value that the entry stands for, by default those of the fields. -/
def Denotes (m : Machine) (e : M.Entry) (pair : Val) : Prop :=
  ∃ a b, M.key.Stands m M.key.default e.key a ∧ M.value.Stands m M.value.default e.value b ∧
    pair = .msg [a, b]

/-- What is not there may be missing, what is there is of its type and passes its `p_check`, and no
field of the entry meets a label of no field. -/
structure Plain (m : Machine) (e : M.Entry) : Prop where
  key : e.key = none → M.key.isOptional = true
  value : e.value = none → M.value.isOptional = true
  keyTakes : ∀ q ∈ e.key, M.key.Takes m q
  valueTakes : ∀ q ∈ e.value, M.value.Takes m q
  keyCheck : e.key.isSome = true → ∀ a b, M.key.Stands m M.key.freshMember e.key a →
    M.value.Stands m M.value.freshMember e.value b → M.key.Accepts [a, b]
  valueCheck : e.value.isSome = true → ∀ a b, M.key.Stands m M.key.default e.key a →
    M.value.Stands m M.value.freshMember e.value b → M.value.Accepts [a, b]
  unpadded : ∀ r ∈ e.recs, isPadding 2 r.tag = false

end Entry

section Dispatch

end Dispatch

section Single

variable {f : Fld} {q x : List UInt8} {v : Val} {debug : Bool} {lim : ℕ} {u : Val}

theorem build_check {ε α : Type} {e : Event} {bad : Bool} {r : Res ε α}
    (h : Machine.isAssertion e = false ∨ bad = false) :
    (Machine.build debug).check e bad r = r := by
  have hquiet : ((Machine.build debug).traps e && bad) = false := by
    show (debug && Machine.isAssertion e && bad) = false
    rcases h with h | h
    · rw [h, Bool.and_false, Bool.false_and]
    · rw [h, Bool.and_false]
  rw [Machine.check, hquiet, if_neg Bool.false_ne_true]

end Single

section Entries

variable {M} {debug : Bool}

variable {r : Rec} {rs : List Rec} {a b a' b' : Val} {vs : List Val} {bits : Bits} {x : List UInt8}
  {n : ℕ}

/-- A field meets a label of no field, or the key or the value is not of its type. -/
def Spoilt (M : MapField) (m : Machine) (rs : List Rec) (ok ov : Option (List UInt8)) : Prop :=
  (∃ r ∈ rs, isPadding 2 r.tag = true) ∨ (∃ q ∈ ok, ¬M.key.Takes m q) ∨ ∃ q ∈ ov, ¬M.value.Takes m q

/-- What spoils an entry stands behind a field that goes well. -/
theorem Spoilt.tail {ok ok' ov ov' : Option (List UInt8)} (h : M.Spoilt m (r :: rs) ok ov)
    (hr : isPadding 2 r.tag = false) (hk : ∀ q ∈ ok, M.key.Takes m q ∨ q ∈ ok')
    (hv : ∀ q ∈ ov, M.value.Takes m q ∨ q ∈ ov') : M.Spoilt m rs ok' ov' := by
  rcases h with ⟨r', hr', hpad⟩ | ⟨q, hq, hn⟩ | ⟨q, hq, hn⟩
  · rcases List.mem_cons.mp hr' with rfl | hr'
    · rw [hr] at hpad
      nomatch hpad
    · exact Or.inl ⟨r', hr', hpad⟩
  · exact Or.inr (Or.inl ⟨q, (hk q hq).resolve_left hn, hn⟩)
  · exact Or.inr (Or.inr ⟨q, (hv q hq).resolve_left hn, hn⟩)

variable (e : M.Entry)

end Entries

section Runs

variable {M} {debug : Bool} {x : List UInt8} {l n : ℕ} {acc : List Val}

end Runs

section IntMap

/-- `int` by `<`. -/
def intOrder : Sorted.Order Val where
  lt a b := a.toInt < b.toInt
  irrefl a := by simp
  trans a b c hab hbc := by
    rw [decide_eq_true_eq] at hab hbc ⊢
    exact hab.trans hbc

end IntMap

end MapField

end Jkl.Pb
