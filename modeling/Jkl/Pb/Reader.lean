import Jkl.Lib.Loop
import Jkl.Pb.Machine
import Jkl.Pb.Writer

/-! Reading a value: the `read_impl` of each field kind, the dispatch loop of a message and the
pass over its fields at the end. -/
namespace Jkl.Pb

/-- `while`, with more turns than any region of `lim` bytes can need. -/
def loop {σ ε α : Type} (step : σ → Loop.Turn σ (Res ε α)) (lim : ℕ) (s : σ) : Res ε α :=
  (Loop.run step (lim + 2) s).getD (.stop .fuel)

def varintRead (m : Machine) (ty : VarintTy) (c : CInt) (p : Params) : Reader := fun mem lim u =>
  (readVarint ty.zigzag ty.tar mem lim).andThen u fun n t =>
    m.check .longBool (ty.tar = .bool && mem.head?.any fun b => 0x80 ≤ b)
      (.ok n (p.wrap (.int (c.cast t))))

/-- `load_le<Tar>`. -/
def loadLe (tar : CInt) (bs : List UInt8) : ℤ := tar.cast (LittleEndian.load bs)

def fixedRead (ty : FixedTy) (c : CInt) (p : Params) : Reader := fun mem lim u =>
  if ty.size ≤ lim then
    match load ty.size mem with
    | none => .stop .fault
    | some bs => .ok ty.size (p.wrap (.int (c.cast (loadLe ty.tar bs))))
  else .err (.fixedIncomplete, u)

def bytesRead (m : Machine) (b : Buf) (p : Params) : Reader := fun mem lim u =>
  (readVarintUint 32 mem lim).andThen u fun k len =>
    let emplaced := if p.pOptional && !b.plain && !u.isSome then
      .some (.bytes (List.replicate (b.fixed.getD 0) 0)) else u
    if b.accepts len then
      m.check .overrun (lim < k + len)
        (match load len (mem.drop k) with
        | none => .stop .fault
        | some bs => .ok (k + len) (if p.pOptional && !b.plain then .some (.bytes bs) else .bytes bs))
    else .err (.invalidLength, emplaced)

section Repeated

/-- `u.emplace_back`, `u.insert` or `u.insert_or_assign`. A new key replaces the value only. -/
def Container.add (c : Container) (acc : List Val) (e : Val) : List Val :=
  match c with
  | .set o => Sorted.place o (fun old _ => old) e acc
  | .map o => Sorted.place (o.on fun e => e.members.headD .none)
      (fun old new => .msg [old.members.headD .none, new.members.getD 1 .none]) e acc
  | _ => acc ++ [e]

/-- `exam_tag` in front of an element: the bytes to skip. The first tag was already read. -/
def examTag (elem : Fld) (first : Bool) (mem : List UInt8) (lim : ℕ) : Option ℕ :=
  if elem.isPacked || first then some 0 else startsWithVarintBytes elem.tag mem lim

structure ElemState where
  mem : List UInt8
  lim : ℕ
  n : ℕ
  acc : List Val

/-- A turn of `while(beg < end)` into a container that was cleared. -/
def elemTurn (elem : Fld) (c : Container) (read : Reader) (s : ElemState) :
    Loop.Turn ElemState Rd :=
  if s.lim = 0 then .done (.ok s.n (.list s.acc))
  else match examTag elem s.acc.isEmpty s.mem s.lim with
    | none => .done (.ok s.n (.list s.acc))
    | some k =>
      match read (s.mem.drop k) (s.lim - k) elem.freshVal with
      | .ok n v => .next ⟨s.mem.drop (k + n), s.lim - (k + n), s.n + (k + n), c.add s.acc v⟩
      | .err (e, _) => .done (.err (e, .list s.acc))
      | .stop x => .done (.stop x)

/-- `for(auto& e : u)` over a fixed size range. -/
def readEach (m : Machine) (elem : Fld) (read : Reader) :
    (first : Bool) → List Val → List UInt8 → ℕ → Res (PbErr × List Val) (List Val)
  | _, [], _, _ => .ok 0 []
  | first, e :: es, mem, lim =>
    match examTag elem first mem lim with
    | none => m.check .shortRun true (.err (.tagMismatch, e :: es))
    | some k =>
      match read (mem.drop k) (lim - k) e with
      | .ok n v =>
        match readEach m elem read false es (mem.drop (k + n)) (lim - (k + n)) with
        | .ok n' vs => .ok (k + n + n') (v :: vs)
        | .err (x, vs) => .err (x, v :: vs)
        | .stop x => .stop x
      | .err (x, v) => .err (x, v :: es)
      | .stop x => .stop x

/-- The elements a `memcpy` of the payload leaves in an array. A bool keeps its byte. -/
def objectVals (c : CInt) (size : ℕ) : (cnt : ℕ) → List UInt8 → List Val
  | 0, _ => []
  | cnt + 1, bs =>
    .int (if c = .bool then LittleEndian.load (bs.take size) else
      c.cast (LittleEndian.load (bs.take size))) :: objectVals c size cnt (bs.drop size)

/-- `sizeof(elem_t)` and the type of the elements of an array of numbers. -/
def Fld.elemType : Fld → CInt
  | varint _ _ c _ | fixed _ _ c _ => c
  | _ => .u8

/-- `static_len_fld_wire_size`. -/
def Fld.staticFldSize (elem : Fld) : ℕ := (elem.wireSize elem.isPacked false [] elem.freshVal).1

def listOf : Res (PbErr × List Val) (List Val) → Rd
  | .ok n vs => .ok n (.list vs)
  | .err (e, vs) => .err (e, .list vs)
  | .stop s => .stop s

/-- The payload of a packed field whose elements all have one length, into a sequence. -/
def readStatic (m : Machine) (elem : Fld) (c : Container) (read : Reader) (mem : List UInt8)
    (len : ℕ) (u : Val) : Rd :=
  let cnt := len / elem.staticFldSize
  let into (es : List Val) : Rd :=
    if elem.sameAsWireLayout c then
      match load len mem with
      | none => .stop .fault
      | some bs => .ok len (.list (objectVals elem.elemType elem.staticFldSize cnt bs))
    else listOf (readEach m elem read true es mem len)
  match c with
  | .fixed n _ => if cnt = n then into (u.elemsOf n) else .err (.invalidLength, u)
  | _ => into ((u.elems ++ List.replicate cnt elem.freshVal).take cnt)

/-- The body of `read_impl` between the length of a packed field and its last assertion; `len` is
the whole rest of the region for an unpacked field. -/
def readElems (m : Machine) (elem : Fld) (c : Container) (read : Reader) (mem : List UInt8)
    (len : ℕ) (u : Val) : Rd :=
  let packedStatic := elem.isPacked && elem.isStaticLen
  let cnt := len / elem.staticFldSize
  let all (r : Rd) : Rd := match r with
    | .ok n v =>
      if elem.isPacked && n ≠ len then .err (.invalidLength, v)
      else if packedStatic && v.elems.length ≠ cnt then .err (.invalidLength, v)
      else .ok n v
    | r => r
  let cleared := all (loop (elemTurn elem c read) len ⟨mem, len, 0, []⟩)
  match c with
  | .set _ | .map _ => cleared
  | .vec _ => if packedStatic then readStatic m elem c read mem len u else cleared
  | .fixed n _ =>
    if packedStatic then readStatic m elem c read mem len u
    else match listOf (readEach m elem read true (u.elemsOf n) mem len) with
      | .ok k v => if elem.isPacked && k ≠ len then .err (.invalidLength, v) else .ok k v
      | r => r

def repeatedRead (m : Machine) (elem : Fld) (c : Container) (read : Reader) : Reader :=
  fun mem lim u =>
    if elem.isPacked then
      (readVarintUint 32 mem lim).andThen u fun k len =>
        if lim < k + len then .err (.repeatedIncomplete, u)
        else if elem.isStaticLen && len % elem.staticFldSize ≠ 0 then .err (.invalidLength, u)
        else
          let r := (readElems m elem c read (m.region (mem.drop k) len) len u).advance k
          match r with
          | .ok n _ => m.check .packedEnd (n ≠ k + len) r
          | r => r
    else
      m.check .loneTag (match c with
        | .fixed n _ => n = 0
        | _ => lim = 0) (readElems m elem c read mem lim u)

end Repeated

section Message

/-- A `case` of the dispatch: the tag, the index of the field in the message (a oneof has one
index for all its members) and the reader on the field's member. -/
structure Case where
  tag : ℕ
  idx : ℕ
  read : Reader

/-- `expended_fld_case_tag`. -/
def caseTag (cases : List Case) (i : ℕ) : ℕ :=
  match cases[i]? with
  | some c => c.tag
  | none => 0xffffff + i - cases.length

/-- The label of the `switch` of `read_sub_flds<I>`, and of the next one, that a tag meets. -/
def findCase (cases : List Case) (tag : ℕ) : (blocks : ℕ) → (I : ℕ) → Option ℕ
  | 0, _ => none
  | blocks + 1, I =>
    match (List.range 32).find? fun N => caseTag cases (I + N) = tag with
    | some N => some (I + N)
    | none =>
      let next := min (I + 32) cases.length
      if next < cases.length then findCase cases tag blocks next else none

/-- `valBits`: the fields that were read. -/
abbrev Bits := ℕ → Bool

def Bits.set (bits : Bits) (i : ℕ) : Bits := fun j => j = i || bits j

abbrev MsgRes := Res (PbErr × List Val) (List Val × Bits)

/-- `injected_fld_read` of a case. -/
def Case.run (c : Case) (mem : List UInt8) (lim : ℕ) (vs : List Val) (bits : Bits) : MsgRes :=
  match c.read mem lim (vs.getD c.idx .none) with
  | .ok n v => .ok n (vs.set c.idx v, bits.set c.idx)
  | .err (e, v) => .err (e, vs.set c.idx v)
  | .stop s => .stop s

def readSubFlds (cases : List Case) (tag : ℕ) (mem : List UInt8) (lim : ℕ) (vs : List Val)
    (bits : Bits) : MsgRes :=
  match findCase cases tag (cases.length + 1) 0 with
  | none => .err (.tagMismatch, vs)
  | some i =>
    match cases[i]? with
    | some c => c.run mem lim vs bits
    | none => .stop .unreachable

def skipBytes (lim n : ℕ) : Scan Unit := if n ≤ lim then .ok n () else .err .invalidLength

/-- The content of a field that no case matched. -/
def skipUnknown (m : Machine) (tag : ℕ) (mem : List UInt8) (lim : ℕ) : Scan Unit :=
  match tag % 8 with
  | 0 => skipVarint mem lim
  | 1 => skipBytes lim 8
  | 2 =>
    match readVarintUint 32 mem lim with
    | .ok k len => (skipBytes (lim - k) len).advance k
    | .err e => .err e
    | .stop s => .stop s
  | 5 => skipBytes lim 4
  | _ => m.check .wireType true (.ok 0 ())

structure MsgState where
  mem : List UInt8
  lim : ℕ
  n : ℕ
  vs : List Val
  bits : Bits

def MsgState.move (s : MsgState) (k : ℕ) (vs : List Val) (bits : Bits) : MsgState :=
  ⟨s.mem.drop k, s.lim - k, s.n + k, vs, bits⟩

/-- The field of the schema that a tag belongs to. -/
def ownCase (cases : List Case) (tag : ℕ) : Option Case := cases.find? fun c => c.tag = tag

/-- A fixed size range of an unpacked field has no room for the run that is about to be read. -/
def isFull (flds : List Fld) (bits : Bits) (i : ℕ) : Bool :=
  match flds[i]? with
  | some (.repeated elem (.fixed n _) _) => !elem.isPacked && (n = 0 || bits i)
  | _ => false

/-- A turn of `while(beg < end)` over the fields of a message. -/
def msgTurn (m : Machine) (flds : List Fld) (cases : List Case) (s : MsgState) :
    Loop.Turn MsgState MsgRes :=
  if s.lim = 0 then .done (.ok s.n (s.vs, s.bits))
  else match readVarintUint 32 s.mem s.lim with
    | .err e => .done (.err (e, s.vs))
    | .stop x => .done (.stop x)
    | .ok k tag =>
      let own := ownCase cases tag
      match m.check .refill (own.any fun c => isFull flds s.bits c.idx)
          (readSubFlds cases tag (s.mem.drop k) (s.lim - k) s.vs s.bits) with
      | .ok n (vs, bits) => .next (s.move (k + n) vs bits)
      | .stop x => .done (.stop x)
      | .err (e, vs) =>
        if e = .tagMismatch then
          match m.check .swallow own.isSome (skipUnknown m tag (s.mem.drop k) (s.lim - k)) with
          | .ok n _ => .next (s.move (k + n) vs s.bits)
          | .err e => .done (.err (e, vs))
          | .stop x => .done (.stop x)
        else .done (.err (e, vs))

/-- `exam_sub_flds`, from field `i` on. -/
def examSubFlds (m : Machine) (bits : Bits) :
    (i : ℕ) → List Fld → List Val → Res (PbErr × List Val) (List Val)
  | _, [], vs => .ok 0 vs
  | i, f :: fs, vs =>
    if bits i then
      match f.params.pCheck with
      | none => examSubFlds m bits (i + 1) fs vs
      | some c =>
        m.check .staleCheck (c.reads.any fun j => i < j && !bits j)
          (match c.validate vs with
          | none => examSubFlds m bits (i + 1) fs vs
          | some e => m.check .checkMismatch (e = .tagMismatch) (.err (e, vs)))
    else if f.isOptional then
      examSubFlds m bits (i + 1) fs (vs.set i (f.clearVal (vs.getD i .none)))
    else .err (.requiredFieldMissing, vs)

/-- The fields of a message, up to the end of its region. -/
def readFields (m : Machine) (skipLen : Bool) (flds : List Fld) (cases : List Case)
    (mem : List UInt8) (lim : ℕ) (vs : List Val) : Res (PbErr × List Val) (List Val) :=
  match loop (msgTurn m flds cases) lim ⟨mem, lim, 0, vs, fun _ => false⟩ with
  | .ok n (vs, bits) =>
    m.check .msgEnd (!skipLen && n ≠ lim)
      (match examSubFlds m bits 0 flds vs with
      | .ok _ vs => .ok n vs
      | .err e => .err e
      | .stop x => .stop x)
  | .err e => .err e
  | .stop x => .stop x

def messageRead (m : Machine) (skipLen : Bool) (p : Params) (flds : List Fld) (cases : List Case) :
    Reader := fun mem lim u =>
  let body (mem : List UInt8) (lim : ℕ) : Rd :=
    let vs := if p.pOptional && !u.isSome then Fld.fresh flds
      else (p.constVal u).membersOf flds.length
    match readFields m skipLen flds cases mem lim vs with
    | .ok n vs => .ok n (p.wrap (.msg vs))
    | .err (e, vs) => .err (e, p.wrap (.msg vs))
    | .stop x => .stop x
  if skipLen then body mem lim
  else (readVarintUint 32 mem lim).andThen u fun k len =>
    if lim < k + len then .err (.msgIncomplete, u)
    else (body (m.region (mem.drop k) len) len).advance k

end Message

/-- `pb_oneof_fld::injected_fld_read<I>`: the member is activated before it is read. -/
def oneofRead (mem : Fld) (I : ℕ) (read : Reader) : Reader := fun bytes lim u =>
  let v := if u.active.1 = I + 1 then u.active.2 else mem.freshVal
  (read bytes lim v).within (.oneof (I + 1))

/-- The `injected_fld_read` of the fields of a message, each on its field's member. -/
def oneofReads (I : ℕ) : List Fld → List (List Reader) → List Reader
  | f :: fs, rs :: rss => oneofRead f I (rs.headD fun _ _ _ => .stop .unreachable) ::
      oneofReads (I + 1) fs rss
  | _, _ => []

def casesFrom (i : ℕ) : List Fld → List (List Reader) → List Case
  | f :: fs, rs :: rss =>
    (f.injectedFlds.zip rs).map (fun gr => ⟨gr.1.tag, i, gr.2⟩) ++ casesFrom (i + 1) fs rss
  | _, _ => []

namespace Fld

/- What a field lets the enclosing message read: its own `read_impl`, or one reader for each
member of a oneof. -/
mutual
def injectedFldRead (m : Machine) : Fld → List Reader
  | varint _ ty c p => [varintRead m ty c p]
  | fixed _ ty c p => [fixedRead ty c p]
  | bytes _ b p => [bytesRead m b p]
  | message _ p flds => [messageRead m false p flds (casesFrom 0 flds (injectedFldReads m flds))]
  | repeated elem c _ =>
    [repeatedRead m elem c ((injectedFldRead m elem).headD fun _ _ _ => .stop .unreachable)]
  | oneof _ mems => oneofReads 0 mems (injectedFldReads m mems)
def injectedFldReads (m : Machine) : List Fld → List (List Reader)
  | [] => []
  | f :: fs => injectedFldRead m f :: injectedFldReads m fs
end

end Fld

/-- The `switch` of a message. -/
def casesOf (m : Machine) (flds : List Fld) : List Case := casesFrom 0 flds (Fld.injectedFldReads m flds)

/-- `read` and, without `skipLen`, `read_len_prefixed`. -/
def Schema.read (m : Machine) (s : Schema) (skipLen : Bool) : Reader := fun mem lim d =>
  match messageRead m skipLen .null s.flds (casesOf m s.flds) mem lim d with
  | .ok n v =>
    match s.check with
    | none => .ok n v
    | some c =>
      match c.validate v.members with
      | none => .ok n v
      | some e => .err (e, v)
  | r => r

/-- `full_read`. -/
def Schema.fullRead (m : Machine) (s : Schema) (skipLen : Bool) (b : List UInt8) (d : Val) : Rd :=
  match s.read m skipLen b b.length d with
  | .ok n v => if n = b.length then .ok n v else .err (.moreDataThanRequired, v)
  | r => r

end Jkl.Pb
