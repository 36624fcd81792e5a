import Jkl.Lib.Sorted
import Jkl.Pb.Types

/-! The field kinds of `dsl.hpp` with the C++ types they are bound to. A `p_val` accessor is a
position here: field `i` of a message reads and writes member `i` of its struct. -/
namespace Jkl.Pb

/-- A `p_check` looks at some members of the enclosing struct. -/
structure Check where
  reads : List ℕ
  verdict : List Val → Option PbErr

def Check.validate (c : Check) (d : List Val) : Option PbErr :=
  c.verdict (c.reads.map fun i => d.getD i .none)

/-- `pb_params`. A `p_has_val` is given the enclosing struct. -/
structure Params where
  pOptional : Bool
  pDefault : Option Val
  pHasVal : Option (List Val → Bool)
  pClearVal : Option (Val → Val)
  pCheck : Option Check

namespace Params

/-- `pb_null_params`. -/
def null : Params := ⟨false, none, none, none, none⟩

def isOptional (p : Params) : Bool :=
  p.pOptional || p.pDefault.isSome || p.pHasVal.isSome || p.pClearVal.isSome

/-- `has_val`, where `u` is the field's own member of `d`. -/
def hasVal (p : Params) (d : List Val) (u : Val) : Bool :=
  if p.pOptional then u.isSome
  else match p.pHasVal with
    | some h => h d
    | none => match p.pDefault with
      | some x => u != x
      | none => true

/-- `const_val`. -/
def constVal (p : Params) (u : Val) : Val := if p.pOptional then u.get else u

/-- A value put where `mutable_val` puts it. -/
def wrap (p : Params) (v : Val) : Val := if p.pOptional then .some v else v

/-- `clear_val`; without any of the three ways the source does not compile. -/
def clearVal (p : Params) (u : Val) : Val :=
  if p.pOptional then .none
  else match p.pClearVal with
    | some c => c u
    | none => p.pDefault.getD u

end Params

/-- The types of `pb_varint_fld`. -/
inductive VarintTy where
  | bool
  | int32
  | int64
  | uint32
  | uint64
  | sint32
  | sint64
deriving DecidableEq, Repr

def VarintTy.tar : VarintTy → CInt
  | .bool => .bool
  | .int32 | .sint32 => .i32
  | .int64 | .sint64 => .i64
  | .uint32 => .u32
  | .uint64 => .u64

def VarintTy.zigzag : VarintTy → Bool
  | .sint32 | .sint64 => true
  | _ => false

/-- The integral types of `pb_fixed_fld`. -/
inductive FixedTy where
  | sfixed32
  | sfixed64
  | fixed32
  | fixed64
deriving DecidableEq, Repr

def FixedTy.tar : FixedTy → CInt
  | .sfixed32 => .i32
  | .sfixed64 => .i64
  | .fixed32 => .u32
  | .fixed64 => .u64

/-- `sizeof(Tar)`. -/
def FixedTy.size (t : FixedTy) : ℕ := t.tar.bits / 8

def FixedTy.wireType : FixedTy → WireType
  | .sfixed32 | .fixed32 => .fix32
  | .sfixed64 | .fixed64 => .fix64

def mkTag (id : ℕ) (wt : WireType) : ℕ := id <<< 3 ||| wt.code

/-- What a bytes or string field is bound to. `plain`: under `p_optional` the value is still a
buffer and not an `std::optional` of one. -/
structure Buf where
  /-- The size of a buffer that cannot be resized. -/
  fixed : Option ℕ
  elmSize : ℕ
  plain : Bool

/-- What a repeated field is bound to. `std::set` and `std::map` stand for the unordered
containers too. -/
inductive Container where
  | vec (buf : Bool)
  | set (order : Sorted.Order Val)
  | map (order : Sorted.Order Val)
  | fixed (n : ℕ) (array : Bool)

namespace Container

/-- The elements lie in one piece of memory. -/
def isBuf : Container → Bool
  | vec buf => buf
  | fixed .. => true
  | _ => false

/-- The number of elements; it is part of the type of an array. -/
def count (u : Val) : Container → ℕ
  | fixed n true => n
  | _ => u.elems.length

end Container

/-- `pb_map` is a `repeated` message of two fields over a `map`. -/
inductive Fld where
  | varint (id : ℕ) (ty : VarintTy) (c : CInt) (p : Params)
  | fixed (id : ℕ) (ty : FixedTy) (c : CInt) (p : Params)
  | bytes (id : ℕ) (b : Buf) (p : Params)
  | message (id : ℕ) (p : Params) (flds : List Fld)
  | repeated (elem : Fld) (c : Container) (p : Params)
  | oneof (p : Params) (mems : List Fld)

namespace Fld

def id : Fld → ℕ
  | varint id .. | fixed id .. | bytes id .. | message id .. => id
  | repeated elem .. => elem.id
  | oneof .. => 0

def wireType : Fld → WireType
  | varint .. => .varint
  | fixed _ ty .. => ty.wireType
  | _ => .lenDlm

def params : Fld → Params
  | varint _ _ _ p | fixed _ _ _ p | bytes _ _ p | message _ p _ | repeated _ _ p | oneof p _ => p

/-- `f_tag`. -/
def tag (f : Fld) : ℕ := mkTag f.id f.wireType

def isOptional : Fld → Bool
  | repeated .. | oneof .. => true
  | f => f.params.isOptional

/-- `injected_fld_list`. -/
def injectedFlds : Fld → List Fld
  | oneof _ mems => mems
  | f => [f]

/-- `is_packed` of the repeated field of this field. -/
def isPacked (elem : Fld) : Bool := elem.wireType ≠ .lenDlm

/-- `is_optional_uval`: the value sits in an `std::optional`. -/
def inOptional : Fld → Bool
  | bytes _ b p => p.pOptional && !b.plain
  | f => f.params.pOptional

/- A value-initialised object; `fresh` puts it under the `std::optional`, which is empty. -/
mutual
def freshVal : Fld → Val
  | varint .. | fixed .. => .int 0
  | bytes _ b _ => .bytes (List.replicate (b.fixed.getD 0) 0)
  | message _ _ flds => .msg (fresh flds)
  | repeated elem (.fixed n _) _ => .list (List.replicate n (freshVal elem))
  | repeated _ _ _ => .list []
  | oneof .. => .oneof 0 .none
def fresh : List Fld → List Val
  | [] => []
  | f :: fs => (if f.inOptional then .none else freshVal f) :: fresh fs
end

/-- `has_val` of the field kinds. -/
def hasVal (d : List Val) (u : Val) : Fld → Bool
  | bytes _ b p => if p.pOptional && b.plain then !u.toBytes.isEmpty else p.hasVal d u
  | f => f.params.hasVal d u

/-- `const_val` of the field kinds. -/
def constVal (f : Fld) (u : Val) : Val := if f.inOptional then u.get else u

/-- `clear_val` of the field kinds. -/
def clearVal (u : Val) : Fld → Val
  | bytes _ b p => if p.pOptional && b.plain then .bytes [] else p.clearVal u
  | repeated _ _ p => match p.pClearVal with
    | some c => c u
    | none => .list []
  | oneof .. => .oneof 0 .none
  | f => f.params.clearVal u

theorem ind {P : Fld → Prop} (varint : ∀ id ty c p, P (.varint id ty c p))
    (fixed : ∀ id ty c p, P (.fixed id ty c p)) (bytes : ∀ id b p, P (.bytes id b p))
    (message : ∀ id p flds, (∀ f ∈ flds, P f) → P (.message id p flds))
    (repeated : ∀ elem c p, P elem → P (.repeated elem c p))
    (oneof : ∀ p mems, (∀ f ∈ mems, P f) → P (.oneof p mems)) (f : Fld) : P f :=
  Fld.rec (motive_1 := P) (motive_2 := fun fs => ∀ f ∈ fs, P f) varint fixed bytes message
    repeated oneof (by simp) (fun _ _ hf hfs => by simpa using ⟨hf, hfs⟩) f

end Fld

def Container.holds : Container → List Val → Bool
  | .vec _, _ => true
  | .set o, vs => Sorted.Increasing o vs
  | .map o, vs => Sorted.Increasing (o.on fun e => e.members.headD .none) vs
  | .fixed n _, vs => vs.length = n

/-- A buffer of the type can have this many bytes. -/
def Buf.accepts (b : Buf) (len : ℕ) : Bool :=
  match b.fixed with
  | some n => len = n
  | none => len % b.elmSize = 0

namespace Fld

/- The values a C++ object of the field's type can have: `fitsVal` without the `std::optional`,
`fits` for the members of a struct. -/
mutual
def fitsVal : Fld → Val → Bool
  | varint _ _ c _, v | fixed _ _ c _, v => match v with
    | .int x => c.InRange x
    | _ => false
  | bytes _ b _, v => match v with
    | .bytes bs => b.accepts bs.length
    | _ => false
  | message _ _ flds, v => match v with
    | .msg vs => fits flds vs
    | _ => false
  | repeated elem c _, v => match v with
    | .list vs => c.holds vs && vs.all (fitsVal elem)
    | _ => false
  | oneof _ mems, v => match v with
    | .oneof 0 .none => true
    | .oneof (i + 1) w => fitsAt mems i w
    | _ => false
def fits : List Fld → List Val → Bool
  | [], us => us.isEmpty
  | f :: fs, us => match us with
    | [] => false
    | u :: us =>
      (if f.inOptional then u = .none || u.isSome && fitsVal f u.get else fitsVal f u) && fits fs us
def fitsAt : List Fld → ℕ → Val → Bool
  | [], _, _ => false
  | f :: _, 0, v => fitsVal f v
  | _ :: fs, i + 1, v => fitsAt fs i v
end

end Fld

/-- A field with these parameters can be cleared if it may be absent. -/
def Params.clearable (p : Params) : Bool :=
  p.isOptional == (p.pOptional || p.pDefault.isSome || p.pClearVal.isSome)

namespace Fld

/-- A field that may be repeated or be a member of a oneof. -/
def isElement : Fld → Bool
  | repeated .. | oneof .. => false
  | f => !f.isOptional

/-- The static assertions of a field kind, and what reading requires to compile. -/
def wellFormed : Fld → Bool
  | varint _ ty c p => p.clearable && (!ty.zigzag || c.signed || c = .bool)
  | fixed _ _ _ p => p.clearable
  | bytes _ b p => p.clearable && 0 < b.elmSize && !(p.pOptional && b.plain && b.fixed.isSome)
  | message _ p flds =>
    p.clearable && ((flds.flatMap injectedFlds).map id).Nodup &&
      (flds.flatMap injectedFlds).all fun g => 0 < g.id && g.id < 2 ^ 29
  | repeated elem c p =>
    elem.isElement && !p.pOptional && p.pHasVal.isNone && p.pDefault.isNone &&
      match c, elem with
      | .map _, message _ _ [_, _] => true
      | .map _, _ => false
      | .fixed .., _ => p.pClearVal.isSome
      | _, _ => true
  | oneof p mems => mems.all isElement && !p.isOptional

/- A property of the field and of all fields under it. -/
mutual
def all (q : Fld → Bool) : Fld → Bool
  | message id p flds => q (message id p flds) && alls q flds
  | repeated elem c p => q (repeated elem c p) && all q elem
  | oneof p mems => q (oneof p mems) && alls q mems
  | f => q f
def alls (q : Fld → Bool) : List Fld → Bool
  | [] => true
  | f :: fs => all q f && alls q fs
end

theorem alls_eq_true {q : Fld → Bool} {fs : List Fld} :
    alls q fs = true ↔ ∀ f ∈ fs, all q f = true := by
  induction fs with
  | nil => simp [alls]
  | cons f fs ih => simp [alls, ih]

theorem all_self {q : Fld → Bool} {f : Fld} (h : all q f = true) : q f = true := by
  cases f <;> simp [all] at h <;> simp [h]

/- The field and all fields under it. -/
mutual
def subs : Fld → List Fld
  | message id p flds => message id p flds :: subsOf flds
  | repeated elem c p => repeated elem c p :: subs elem
  | oneof p mems => oneof p mems :: subsOf mems
  | f => [f]
def subsOf : List Fld → List Fld
  | [] => []
  | f :: fs => subs f ++ subsOf fs
end

theorem self_mem_subs (f : Fld) : f ∈ f.subs := by
  cases f <;> simp [subs]

theorem mem_subsOf {g : Fld} {fs : List Fld} : g ∈ subsOf fs ↔ ∃ f ∈ fs, g ∈ f.subs := by
  induction fs with
  | nil => simp [subsOf]
  | cons f fs ih => simp [subsOf, ih]

theorem all_iff_subs {q : Fld → Bool} (f : Fld) :
    all q f = true ↔ ∀ g ∈ f.subs, q g = true := by
  have hlist : ∀ fs : List Fld, (∀ f ∈ fs, all q f = true ↔ ∀ g ∈ f.subs, q g = true) →
      (alls q fs = true ↔ ∀ g ∈ subsOf fs, q g = true) := by
    intro fs ih
    rw [alls_eq_true]
    constructor
    · intro h g hg
      obtain ⟨f, hf, hgf⟩ := mem_subsOf.mp hg
      exact (ih f hf).mp (h f hf) g hgf
    · intro h f hf
      exact (ih f hf).mpr fun g hg => h g (mem_subsOf.mpr ⟨f, hf, hg⟩)
  induction f using ind with
  | varint | fixed | bytes => simp [all, subs]
  | message id p flds ih => simp [all, subs, hlist flds ih]
  | repeated elem c p ih => simp [all, subs, ih]
  | oneof p mems ih => simp [all, subs, hlist mems ih]

/-- A field that compiles. -/
abbrev wf (f : Fld) : Bool := all wellFormed f

theorem wf_message {id : ℕ} {p : Params} {flds : List Fld} (h : (message id p flds).wf = true) :
    ∀ f ∈ flds, f.wf = true := by
  simp only [wf, all, Bool.and_eq_true, alls_eq_true] at h
  exact h.2

theorem wf_repeated {elem : Fld} {c : Container} {p : Params} (h : (repeated elem c p).wf = true) :
    elem.wf = true ∧ elem.isElement = true ∧ p.pOptional = false := by
  simp [wf, all, wellFormed] at h ⊢
  exact ⟨h.2, h.1.1.1.1.1, h.1.1.1.1.2⟩

theorem wf_oneof {p : Params} {mems : List Fld} (h : (oneof p mems).wf = true) :
    (∀ f ∈ mems, f.wf = true) ∧ (∀ f ∈ mems, f.isElement = true) ∧ p.pOptional = false := by
  simp [wf, all, wellFormed, alls_eq_true, Params.isOptional] at h ⊢
  exact ⟨h.2, h.1.1, h.1.2.1.1.1⟩

/-- A value a member of a struct can have. -/
def fitsMember (f : Fld) (u : Val) : Bool :=
  if f.inOptional then u = .none || u.isSome && fitsVal f u.get else fitsVal f u

theorem fits_cons {f : Fld} {fs : List Fld} {us : List Val} :
    fits (f :: fs) us = true ↔ ∃ u vs, us = u :: vs ∧ fitsMember f u = true ∧ fits fs vs = true := by
  cases us with
  | nil => simp [fits]
  | cons u us => simp [fits, fitsMember]

theorem fitsVal_repeated {elem : Fld} {c : Container} {p : Params} {u : Val}
    (hf : (repeated elem c p).wf = true) (hu : (repeated elem c p).fitsMember u = true) :
    (repeated elem c p).fitsVal u = true := by
  simpa [fitsMember, inOptional, params, (wf_repeated hf).2.2] using hu

theorem fitsVal_oneof {p : Params} {mems : List Fld} {u : Val} (hf : (oneof p mems).wf = true)
    (hu : (oneof p mems).fitsMember u = true) : (oneof p mems).fitsVal u = true := by
  simpa [fitsMember, inOptional, params, (wf_oneof hf).2.2] using hu

end Fld

/-- `pb_message<Type>(flds...)`, perhaps with a `p_check` of its own. -/
def topLevel (check : Option Check) (flds : List Fld) : Fld :=
  .message 0 ⟨false, none, none, none, check⟩ flds

/-- A message type that compiles. -/
structure Schema where
  flds : List Fld
  check : Option Check
  wf : (topLevel check flds).wf = true

def Schema.fld (s : Schema) : Fld := topLevel s.check s.flds

theorem Schema.wellFormed_of_mem (s : Schema) {g : Fld} (hg : g ∈ Fld.subsOf s.flds) :
    g.wellFormed = true :=
  (Fld.all_iff_subs _).mp s.wf g (List.mem_cons_of_mem _ hg)

theorem Schema.wf_flds (s : Schema) : ∀ f ∈ s.flds, f.wf = true := Fld.wf_message s.wf

end Jkl.Pb
