import Jkl.Pb.Writer
import Jkl.Pb.VarintSpec

/-! What a value is on the wire, without a length cache and in unbounded arithmetic: every
length prefix is the length of the payload behind it. -/
namespace Jkl.Pb
open Base128

/-- A payload behind its length. -/
def delimited (payload : List UInt8) : List UInt8 := encode payload.length ++ payload

namespace Fld

/- `cut` is applied to what the writer copies from memory in one piece. The encoding proper is
the one that cuts nothing. -/
mutual
def wire (cut : List UInt8 → List UInt8) :
    Fld → (skipTag skipLen : Bool) → (d : List Val) → (u : Val) → List UInt8
  | varint id ty _ p, skipTag, _, d, u =>
    if skipTag || p.hasVal d u then
      writeTag skipTag id .varint ++ appendVarint ty.zigzag ty.tar (ty.tar.cast (p.constVal u).toInt)
    else []
  | fixed id ty _ p, skipTag, _, d, u =>
    if skipTag || p.hasVal d u then
      writeTag skipTag id ty.wireType ++ storeLe ty.tar (p.constVal u).toInt
    else []
  | bytes id b p, skipTag, _, d, u =>
    if (bytes id b p).hasVal d u then
      writeTag skipTag id .lenDlm ++ delimited (cut ((bytes id b p).constVal u).toBytes)
    else []
  | message id p flds, skipTag, skipLen, d, u =>
    let payload := wires cut flds (p.constVal u).members (p.constVal u).members
    if skipTag || p.hasVal d u then
      writeTag skipTag id .lenDlm ++ (if skipLen then payload else delimited payload)
    else []
  | repeated elem c _, skipTag, _, _, u =>
    let elems := (u.elems.map (wire cut elem elem.isPacked false [])).flatten
    if elem.isPacked then
      writeTag skipTag elem.id .lenDlm ++
        delimited (if elem.sameAsWireLayout c then cut (elem.objectBytes u.elems) else elems)
    else elems
  | oneof _ mems, _, _, _, u =>
    match u.active with
    | (0, _) => []
    | (i + 1, m) => wireAt cut mems i m
def wires (cut : List UInt8 → List UInt8) : List Fld → (d us : List Val) → List UInt8
  | [], _, _ => []
  | f :: fs, d, us => wire cut f false false d (us.headD .none) ++ wires cut fs d us.tail
def wireAt (cut : List UInt8 → List UInt8) : List Fld → ℕ → Val → List UInt8
  | [], _, _ => []
  | f :: _, 0, m => wire cut f false false [] m
  | _ :: fs, i + 1, m => wireAt cut fs i m
end

/-- The encoding of a value. -/
abbrev encoding (f : Fld) (skipTag skipLen : Bool) (d : List Val) (u : Val) : List UInt8 :=
  f.wire (fun bs => bs) skipTag skipLen d u

end Fld

/-- One call of `wire_size` or `write_impl`. -/
structure Node where
  fld : Fld
  skipTag : Bool
  skipLen : Bool
  d : List Val
  u : Val

namespace Fld

/- The calls a call makes, itself included. -/
mutual
def nodes : Fld → (skipTag skipLen : Bool) → (d : List Val) → (u : Val) → List Node
  | message id p flds, skipTag, skipLen, d, u =>
    ⟨message id p flds, skipTag, skipLen, d, u⟩ ::
      if skipTag || p.hasVal d u then
        nodesOf flds (p.constVal u).members (p.constVal u).members
      else []
  | repeated elem c p, skipTag, skipLen, d, u =>
    ⟨repeated elem c p, skipTag, skipLen, d, u⟩ ::
      (u.elems.map (nodes elem elem.isPacked false [])).flatten
  | oneof p mems, skipTag, skipLen, d, u =>
    ⟨oneof p mems, skipTag, skipLen, d, u⟩ ::
      match u.active with
      | (0, _) => []
      | (i + 1, m) => nodesAt mems i m
  | f, skipTag, skipLen, d, u => [⟨f, skipTag, skipLen, d, u⟩]
def nodesOf : List Fld → (d us : List Val) → List Node
  | [], _, _ => []
  | f :: fs, d, us => nodes f false false d (us.headD .none) ++ nodesOf fs d us.tail
def nodesAt : List Fld → ℕ → Val → List Node
  | [], _, _ => []
  | f :: _, 0, m => nodes f false false [] m
  | _ :: fs, i + 1, m => nodesAt fs i m
end

end Fld
end Jkl.Pb
