import Jkl.Lib.LittleEndian
import Jkl.Pb.Schema
import Jkl.Pb.Varint

/-! Writing a value: `len_cache_cnt`, `wire_size` and `write_impl` of `dsl.hpp`. The length cache
is a list of slots. `wire_size` returns the ones it fills, in the order of `lc`, and
`write_impl` takes them from the front. -/
namespace Jkl.Pb

/-- `pb_size_t` is `uint32_t`. -/
def sizeT (n : ℕ) : ℕ := n % 2 ^ 32

def tagWireSize (skipTag : Bool) (id : ℕ) (wt : WireType) : ℕ :=
  if skipTag then 0 else varintWireSize false .u32 (mkTag id wt)

def lenDlmWireSize (skipTag skipLen : Bool) (id len : ℕ) : ℕ :=
  sizeT (tagWireSize skipTag id .lenDlm + (if skipLen then 0 else varintWireSize false .u32 len) + len)

def writeTag (skipTag : Bool) (id : ℕ) (wt : WireType) : List UInt8 :=
  if skipTag then [] else varintBytes (mkTag id wt)

/-- `store_le` of a value converted to `Tar`. -/
def storeLe (tar : CInt) (x : ℤ) : List UInt8 :=
  LittleEndian.store (tar.bits / 8) (tar.cast x % 2 ^ tar.bits).toNat

namespace Fld

/- `is_static_len`. -/
mutual
def isStaticLen : Fld → Bool
  | varint _ ty _ p => !p.isOptional && ty.tar = .bool
  | fixed _ _ _ p => !p.isOptional
  | bytes .. => false
  | message _ p flds => !p.isOptional && areStaticLen flds
  | repeated elem (.fixed _ true) _ => isStaticLen elem
  | repeated .. => false
  | oneof .. => false
def areStaticLen : List Fld → Bool
  | [] => true
  | f :: fs => isStaticLen f && areStaticLen fs
end

/- `len_cache_cnt`; `d` is the enclosing struct and `u` the field's own member. -/
mutual
def lenCacheCnt : Fld → (skipLen : Bool) → (d : List Val) → (u : Val) → ℕ
  | varint .., _, _, _ | fixed .., _, _, _ | bytes .., _, _, _ => 0
  | message id p flds, skipLen, d, u =>
    if (message id p flds).isStaticLen then 0
    else if p.hasVal d u then
      (if skipLen then 0 else 1) +
        lenCacheCnts flds (p.constVal u).members (p.constVal u).members
    else 0
  | repeated elem _ _, skipLen, _, u =>
    if elem.isStaticLen then 0
    else if elem.isPacked then if skipLen then 0 else 1
    else (u.elems.map fun e => lenCacheCnt elem false [] e).sum
  | oneof _ mems, _, _, u =>
    match u.active with
    | (0, _) => 0
    | (i + 1, m) => lenCacheCntAt mems i m
def lenCacheCnts : List Fld → (d us : List Val) → ℕ
  | [], _, _ => 0
  | f :: fs, d, us => lenCacheCnt f false d (us.headD .none) + lenCacheCnts fs d us.tail
def lenCacheCntAt : List Fld → ℕ → Val → ℕ
  | [], _, _ => 0
  | f :: _, 0, m => lenCacheCnt f false [] m
  | _ :: fs, i + 1, m => lenCacheCntAt fs i m
end

end Fld

/-- The sizes of the elements in turn, added up in `pb_size_t`, with the slots they fill. -/
def wireSizes (size : Val → ℕ × List ℕ) : List Val → ℕ × List ℕ
  | [] => (0, [])
  | e :: es =>
    let a := size e
    let b := wireSizes size es
    (sizeT (a.1 + b.1), a.2 ++ b.2)

namespace Fld

/- `wire_size`. -/
mutual
def wireSize : Fld → (skipTag skipLen : Bool) → (d : List Val) → (u : Val) → ℕ × List ℕ
  | varint id ty c p, skipTag, _, d, u =>
    if (varint id ty c p).isStaticLen then (tagWireSize skipTag id .varint + 1, [])
    else if p.hasVal d u then
      (tagWireSize skipTag id .varint + varintWireSize ty.zigzag c (p.constVal u).toInt, [])
    else (0, [])
  | fixed id ty c p, skipTag, _, d, u =>
    if (fixed id ty c p).isStaticLen then (tagWireSize skipTag id ty.wireType + ty.size, [])
    else if p.hasVal d u then (tagWireSize skipTag id ty.wireType + ty.size, [])
    else (0, [])
  | bytes id b p, skipTag, skipLen, d, u =>
    if (bytes id b p).hasVal d u then
      (lenDlmWireSize skipTag skipLen id (sizeT ((bytes id b p).constVal u).toBytes.length), [])
    else (0, [])
  | message id p flds, skipTag, skipLen, d, u =>
    let sub := subFldsLen flds (p.constVal u).members (p.constVal u).members
    if (message id p flds).isStaticLen then (lenDlmWireSize skipTag skipLen id sub.1, [])
    else if p.hasVal d u then
      (lenDlmWireSize skipTag skipLen id sub.1, if skipLen then sub.2 else sub.1 :: sub.2)
    else (0, [])
  | repeated elem c _, skipTag, skipLen, _, u =>
    let one := wireSize elem elem.isPacked false [] elem.freshVal
    let len := if elem.isStaticLen then (sizeT (c.count u * one.1), [])
      else wireSizes (wireSize elem elem.isPacked false []) u.elems
    if elem.isPacked then
      (lenDlmWireSize skipTag skipLen elem.id len.1,
        if elem.isStaticLen || skipLen then len.2 else len.1 :: len.2)
    else len
  | oneof _ mems, _, _, _, u =>
    match u.active with
    | (0, _) => (0, [])
    | (i + 1, m) => wireSizeAt mems i m
def subFldsLen : List Fld → (d us : List Val) → ℕ × List ℕ
  | [], _, _ => (0, [])
  | f :: fs, d, us =>
    let a := wireSize f false false d (us.headD .none)
    let b := subFldsLen fs d us.tail
    (sizeT (a.1 + b.1), a.2 ++ b.2)
def wireSizeAt : List Fld → ℕ → Val → ℕ × List ℕ
  | [], _, _ => (0, [])
  | f :: _, 0, m => wireSize f false false [] m
  | _ :: fs, i + 1, m => wireSizeAt fs i m
end

end Fld

/-- What a call of `write_impl` puts out and the slots it leaves. The log is not in the source:
it pairs each slot taken with the number of payload bytes that follow the length. -/
structure Out where
  bytes : List UInt8
  lc : List ℕ
  log : List (ℕ × ℕ)

namespace Out

def raw (bs : List UInt8) (lc : List ℕ) : Out := ⟨bs, lc, []⟩

def andThen (o : Out) (k : List ℕ → Out) : Out :=
  let r := k o.lc
  ⟨o.bytes ++ r.bytes, r.lc, o.log ++ r.log⟩

/-- A payload behind a length that is known beforehand. -/
def lenStatic (len : ℕ) (payload : List ℕ → Out) (lc : List ℕ) : Out :=
  (raw (appendVarint false .u32 len) lc).andThen payload

/-- A payload behind the length in the next slot. -/
def lenCached (payload : ℕ → List ℕ → Out) (lc : List ℕ) : Out :=
  let len := lc.headD 0
  let r := payload len lc.tail
  ⟨appendVarint false .u32 len ++ r.bytes, r.lc, (len, r.bytes.length) :: r.log⟩

end Out

def writeElems (w : Val → List ℕ → Out) : List Val → List ℕ → Out
  | [], lc => .raw [] lc
  | e :: es, lc => (w e lc).andThen (writeElems w es)

namespace Fld

/-- `same_as_wire_layout`: the elements lie in memory as they do on the wire. -/
def sameAsWireLayout (elem : Fld) (c : Container) : Bool :=
  c.isBuf && match elem with
    | varint _ ty t _ => ty.tar = .bool && t.bits = 8
    | fixed _ ty t _ => t.bits = 8 * ty.size
    | _ => false

/-- The object representations of the elements. -/
def objectBytes (elem : Fld) (vs : List Val) : List UInt8 :=
  match elem with
  | varint _ _ c _ | fixed _ _ c _ =>
    vs.flatMap fun v => LittleEndian.store (c.bits / 8) (v.toInt % 2 ^ c.bits).toNat
  | _ => []

/-- `wire_size<true, true>` of a packed field whose elements all have one length. -/
def packedStaticLen (elem : Fld) (c : Container) (u : Val) : ℕ :=
  sizeT (c.count u * (elem.wireSize elem.isPacked false [] elem.freshVal).1)

/- `write_impl`. -/
mutual
def writeImpl : Fld → (skipTag skipLen : Bool) → (d : List Val) → (u : Val) → List ℕ → Out
  | varint id ty _ p, skipTag, _, d, u, lc =>
    if skipTag || p.hasVal d u then
      .raw (writeTag skipTag id .varint ++
        appendVarint ty.zigzag ty.tar (ty.tar.cast (p.constVal u).toInt)) lc
    else .raw [] lc
  | fixed id ty _ p, skipTag, _, d, u, lc =>
    if skipTag || p.hasVal d u then
      .raw (writeTag skipTag id ty.wireType ++ storeLe ty.tar (p.constVal u).toInt) lc
    else .raw [] lc
  | bytes id b p, skipTag, _, d, u, lc =>
    if (bytes id b p).hasVal d u then
      let v := ((bytes id b p).constVal u).toBytes
      .raw (writeTag skipTag id .lenDlm ++ appendVarint false .u32 (sizeT v.length) ++
        v.take (sizeT v.length)) lc
    else .raw [] lc
  | message id p flds, skipTag, skipLen, d, u, lc =>
    let v := (p.constVal u).members
    if skipTag || p.hasVal d u then
      (Out.raw (writeTag skipTag id .lenDlm) lc).andThen
        (if skipLen then writeSubs flds v v
        else if (message id p flds).isStaticLen then
          Out.lenStatic (subFldsLen flds v v).1 (writeSubs flds v v)
        else Out.lenCached fun _ => writeSubs flds v v)
    else .raw [] lc
  | repeated elem c _, skipTag, _, _, u, lc =>
    let elems := writeElems (writeImpl elem elem.isPacked false []) u.elems
    let payload := fun len =>
      if elem.sameAsWireLayout c then Out.raw ((elem.objectBytes u.elems).take len) else elems
    if elem.isPacked then
      (Out.raw (writeTag skipTag elem.id .lenDlm) lc).andThen
        (if elem.isStaticLen then
          let len := elem.packedStaticLen c u
          Out.lenStatic len (payload len)
        else Out.lenCached payload)
    else elems lc
  | oneof _ mems, _, _, _, u, lc =>
    match u.active with
    | (0, _) => .raw [] lc
    | (i + 1, m) => writeAt mems i m lc
def writeSubs : List Fld → (d us : List Val) → List ℕ → Out
  | [], _, _, lc => .raw [] lc
  | f :: fs, d, us, lc =>
    (writeImpl f false false d (us.headD .none) lc).andThen (writeSubs fs d us.tail)
def writeAt : List Fld → ℕ → Val → List ℕ → Out
  | [], _, _, lc => .raw [] lc
  | f :: _, 0, m, lc => writeImpl f false false [] m lc
  | _ :: fs, i + 1, m, lc => writeAt fs i m lc
end

/-- `do_write`: the length cache as the first pass leaves it, and the second pass over it. -/
structure Written where
  total : ℕ
  lenCache : List ℕ
  out : Out

def doWrite (f : Fld) (skipTag skipLen : Bool) (d : Val) : Written :=
  let size := f.wireSize skipTag skipLen [] d
  ⟨size.1, size.2, f.writeImpl skipTag skipLen [] d size.2⟩

/-- `write`: the buffer has the size of the first pass. `none` when the second pass does not
end where it does. -/
def write (f : Fld) (skipTag skipLen : Bool) (d : Val) : Option (List UInt8) :=
  let w := f.doWrite skipTag skipLen d
  if w.out.bytes.length = w.total then some w.out.bytes else none

end Fld
end Jkl.Pb
