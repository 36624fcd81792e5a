import Jkl.Uri.Comp
import Jkl.Uri.Reader

/-! The writer: how many bytes it reserves for its components, and what it appends. The two
follow one order of preference, in which wider parts win over the parts they cover. -/
namespace Jkl.Uri

/-- The components of a writer by their tags. -/
abbrev WriteComps := (t : Tag) → Option (WriteComp t)

namespace WriteComps

/-! `max_write_size`. -/

section Size

variable (c : WriteComps) (dest : Codec)

def mxsize (t : Tag) : ℕ := (c t).elim 0 (WriteComp.maxWriteSize dest)

def schemeSize : ℕ :=
  match c .schemeColon with
  | some k => k.maxWriteSize dest
  | none =>
    match c .scheme with
    | some k => if k.nonEmpty then k.maxWriteSize dest + 1 else 0
    | none => 0

def userinfoSize : ℕ :=
  match c .userinfoAt with
  | some k => k.maxWriteSize dest
  | none =>
    match c .userinfo with
    | some k => if k.nonEmpty then k.maxWriteSize dest + 1 else 0
    | none =>
      match c .user with
      | none => 0
      | some k =>
        if k.nonEmpty then
          k.maxWriteSize dest +
            (match c .password with
              | some p => if p.nonEmpty then 1 + p.maxWriteSize dest else 0
              | none => 0) + 1
        else 0

def hostPortSize : ℕ :=
  match c .hostPort with
  | some k => k.maxWriteSize dest
  | none =>
    c.mxsize dest .host +
      match c .port with
      | some k => if k.nonEmpty then 1 + k.maxWriteSize dest else 0
      | none => c.mxsize dest .autoPort

def authoritySize : ℕ :=
  match c .ssAuthority with
  | some k => k.maxWriteSize dest
  | none =>
    match c .authority with
    | some k => 2 + k.maxWriteSize dest
    | none => 2 + c.userinfoSize dest + c.hostPortSize dest

def pathSize : ℕ :=
  match c .path with
  | some k => k.maxWriteSize dest
  | none =>
    c.mxsize dest .dirPath +
      match c .file with
      | some k => k.maxWriteSize dest
      | none =>
        c.mxsize dest .fileName +
          match c .fileDotExt with
          | some k => k.maxWriteSize dest
          | none =>
            match c .fileExt with
            | some k => 1 + k.maxWriteSize dest
            | none => 0

def querySize : ℕ :=
  match c .qmQuery with
  | some k => k.maxWriteSize dest
  | none =>
    match c .query with
    | some k => if k.nonEmpty then 1 + k.maxWriteSize dest else 0
    | none => 0

def fragSize : ℕ :=
  match c .sharpFrag with
  | some k => k.maxWriteSize dest
  | none =>
    match c .frag with
    | some k => if k.nonEmpty then 1 + k.maxWriteSize dest else 0
    | none => 0

/-- `uri_writer::max_write_size<DestCodec>`. -/
def maxWriteSize : ℕ :=
  (match c .schemeAuthority with
    | some k => k.maxWriteSize dest
    | none => c.schemeSize dest + c.authoritySize dest) +
  c.pathSize dest +
  match c .qmQueryFrag with
  | some k => k.maxWriteSize dest
  | none => c.querySize dest + c.fragSize dest

end Size

/-! `append_to`. -/

section Append

variable (asserts : Bool) (c : WriteComps) (dest : Codec)

/-- `do_write` where there is a component with the tag. -/
def doWrite (t : Tag) : Out := (c t).elim (.ok []) (WriteComp.write asserts dest)

def appendScheme : Out :=
  match c .schemeColon with
  | some k => k.write asserts dest
  | none =>
    match c .scheme with
    | some k => if k.nonEmpty then k.write asserts dest ++ .ok [':'] else .ok []
    | none => .ok []

def appendUserinfo : Out :=
  match c .userinfoAt with
  | some k => k.write asserts dest
  | none =>
    match c .userinfo with
    | some k => if k.nonEmpty then k.write asserts dest ++ .ok ['@'] else .ok []
    | none =>
      match c .user with
      | none => .ok []
      | some k =>
        if k.nonEmpty then
          k.write asserts dest ++
            (match c .password with
              | some p => if p.nonEmpty then .ok [':'] ++ p.write asserts dest else .ok []
              | none => .ok []) ++ .ok ['@']
        else .ok []

/-- `o` is what has been appended before; an automatic port reads the scheme there. -/
def appendHostPort (o : Out) : Out :=
  match c .hostPort with
  | some k => o ++ k.write asserts dest
  | none =>
    let o' := o ++ c.doWrite asserts dest .host
    match c .port with
    | some k => if k.nonEmpty then o' ++ .ok [':'] ++ k.write asserts dest else o'
    | none =>
      match c .autoPort with
      | some k => o' ++ k.appendColonPortTo asserts o'.text
      | none => o'

def appendAuthority (o : Out) : Out :=
  match c .ssAuthority with
  | some k => o ++ k.write asserts dest
  | none =>
    match c .authority with
    | some k => o ++ .ok (lit "//") ++ k.write asserts dest
    | none => c.appendHostPort asserts dest (o ++ .ok (lit "//") ++ c.appendUserinfo asserts dest)

/-- The `'/'` that follows a directory path that does not end in one. -/
def dirSlash (dir : Bytes) : Bytes := if dir.getLast? = some ('/' : Byte) then [] else ['/']

def appendDirPath : Out :=
  match c .dirPath with
  | some k =>
    let o := k.write asserts dest
    o ++ .ok (dirSlash o.text)
  | none => .ok []

def appendPath : Out :=
  match c .path with
  | some k => k.write asserts dest
  | none =>
    c.appendDirPath asserts dest ++
      match c .file with
      | some k => k.write asserts dest
      | none =>
        c.doWrite asserts dest .fileName ++
          match c .fileDotExt with
          | some k => k.write asserts dest
          | none =>
            match c .fileExt with
            | some k => .ok ['.'] ++ k.write asserts dest
            | none => .ok []

def appendQuery : Out :=
  match c .qmQuery with
  | some k => k.write asserts dest
  | none =>
    match c .query with
    | some k => if k.nonEmpty then .ok ['?'] ++ k.write asserts dest else .ok []
    | none => .ok []

def appendFrag : Out :=
  match c .sharpFrag with
  | some k => k.write asserts dest
  | none =>
    match c .frag with
    | some k => if k.nonEmpty then .ok ['#'] ++ k.write asserts dest else .ok []
    | none => .ok []

/-- `uri_writer::append_to<DestCodec>`. -/
def appendTo : Out :=
  (match c .schemeAuthority with
    | some k => k.write asserts dest
    | none => c.appendAuthority asserts dest (c.appendScheme asserts dest)) ++
  c.appendPath asserts dest ++
  match c .qmQueryFrag with
  | some k => k.write asserts dest
  | none => c.appendQuery asserts dest ++ c.appendFrag asserts dest

/-- `assign_to`: what its buffer holds after the last `resize_buf`. A byte that was stored behind the
buffer is not in it; where the buffer grows, the new bytes are NUL. -/
def assignTo : Except Stop Bytes :=
  let o := c.appendTo asserts dest
  let size := c.maxWriteSize dest
  match o.stop with
  | none => .ok (o.text.take size ++ List.replicate (o.text.length - size) 0)
  | some e => .error e

end Append

/-- String components of one codec that hold the texts. -/
def ofTexts (codec : Codec) (texts : Tag → Option Bytes) : WriteComps :=
  fun t => if h : t ≠ .autoPort then (texts t).map (.str h codec) else none

end WriteComps

/-- `assign_uri<DestCodec>` of an `uri_uri` of the codec. -/
def assignUri (asserts : Bool) (dest codec : Codec) (u : Bytes) : Except Stop Bytes :=
  let tags := [Tag.schemeColon, .ssAuthority, .path, .qmQueryFrag]
  (read asserts codec u (strComps codec (tags.map fun t => (t, [])))).bind fun comps =>
    (WriteComps.ofTexts codec fun t => if t ∈ tags then some (comps.text t) else none).assignTo
      asserts dest

end Jkl.Uri
