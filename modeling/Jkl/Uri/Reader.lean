import Jkl.Uri.Port

/-! The reader: a text is split by delimiters from left to right, and each part goes to the
component with its tag, if there is one. -/
namespace Jkl.Uri

open Cut (find rfind findFirstOf)
open Jkl.Pb (CInt)

/-! Components a reader can hold. -/

/-- A `uri_str_comp`, or a `uri_port_comp` or `uri_auto_port_comp` over an integer. -/
inductive ReadComp where
  | str (codec : Codec) (s : Bytes)
  | port (ty : CInt) (n : ℤ)
  | autoPort (ty : CInt) (n : ℤ)
deriving DecidableEq, Repr

namespace ReadComp

def clear : ReadComp → ReadComp
  | str codec _ => str codec []
  | port ty _ => port ty 0
  | autoPort ty _ => autoPort ty 0

/-- `read<SrcCodec>`; an automatic port is assigned otherwise. -/
def read (asserts : Bool) (t : Tag) (src : Codec) (s : Bytes) : ReadComp → Except Stop ReadComp
  | str codec _ =>
    let o := codecCvtAppend asserts t codec src s
    match o.stop with
    | none => .ok (str codec o.text)
    | some e => .error e
  | port ty _ =>
    if s = [] then .ok (port ty 0)
    else match numerify ty s with
      | some n => .ok (port ty n)
      | none => .error (.err .invalidPort)
  | autoPort ty n => .ok (autoPort ty n)

def assignPort (s uri : Bytes) : ReadComp → Except Stop ReadComp
  | autoPort ty _ =>
    if s = [] then .ok (autoPort ty (ty.cast (prefixToWellKnownPort uri)))
    else match numerify ty s with
      | some n => .ok (autoPort ty n)
      | none => .error (.err .invalidPort)
  | c => .ok c

end ReadComp

/-- The components of a reader by their tags; `has<Tag>()` is that there is one. -/
abbrev Comps := Tag → Option ReadComp

/-! The split. -/

/-- What the reader does with the text it has matched. -/
inductive Act where
  | doRead (t : Tag) (s : Bytes)
  | assignPort (s uri : Bytes)
  | fail (e : UriErr)
deriving DecidableEq

/-- Each `match_` function returns what it matched and what is left from `_it` on. -/
def matchSchemeColon (v : Bytes) : Option Bytes × Bytes :=
  match findFirstOf (fun c => c ∈ lit ":/?#") v with
  | (a, c :: b) => if c = ':' then (some (a ++ [c]), b) else (none, v)
  | (_, []) => (none, v)

def matchSsAuthority (v : Bytes) : Option Bytes × Bytes :=
  if lit "//" <+: v then
    let p := findFirstOf (fun c => c ∈ lit "/?#") (v.drop 2)
    (some (lit "//" ++ p.1), p.2)
  else (none, v)

def matchPath (v : Bytes) : Option Bytes × Bytes :=
  if v = [] then (none, v)
  else
    let p := findFirstOf (fun c => c ∈ lit "?#") v
    (some p.1, p.2)

def matchQmQuery : Bytes → Option Bytes × Bytes
  | c :: v =>
    if c = '?' then
      let p := findFirstOf (fun c : Byte => c = '#') v
      (some (c :: p.1), p.2)
    else (none, c :: v)
  | [] => (none, [])

def matchSharpFrag (v : Bytes) : Option Bytes × Bytes :=
  if v.head? = some ('#' : Byte) then (some v, []) else (none, v)

def schemeActs (m : Bytes) : List Act :=
  if m.length = 1 then [.fail .noSchemeBeforeColon]
  else [.doRead .schemeColon m, .doRead .scheme m.dropLast]

def portActs (uri : Bytes) : Bytes → List Act
  | c :: m =>
    if c = ':' then [.doRead .port m, .assignPort m uri] else [.assignPort (c :: m) uri]
  | [] => [.assignPort [] uri]

def hostPortActs (uri m : Bytes) : List Act :=
  if m = [] then []
  else .doRead .hostPort m ::
    if m.head? = some ('[' : Byte) then
      match rfind (']' : Byte) m with
      | none => [.fail .unterminatedIpv6]
      | some (a, b) => .doRead .host (a ++ [(']' : Byte)]) :: portActs uri b
    else
      match rfind (':' : Byte) m with
      | none => .doRead .host m :: portActs uri []
      | some (a, b) => .doRead .host a :: portActs uri (':' :: b)

def userinfoActs (info : Bytes) : List Act :=
  [.doRead .userinfo info, .doRead .userinfoAt (info ++ [('@' : Byte)])] ++
    match find (':' : Byte) info with
    | some (u, p) => [.doRead .user u, .doRead .password p]
    | none => [.doRead .user info]

/-- `m` is what `match_ss_authority` matched, `uri` the text up to its end. -/
def authorityActs (uri m : Bytes) : List Act :=
  .doRead .ssAuthority m ::
    match find ('@' : Byte) (m.drop 2) with
    | some (info, h) => userinfoActs info ++ hostPortActs uri h
    | none => hostPortActs uri (m.drop 2)

def fileActs (f : Bytes) : List Act :=
  if f = [] then []
  else .doRead .file f ::
    match rfind ('.' : Byte) f with
    | some (n, e) => [.doRead .fileName n, .doRead .fileExt e, .doRead .fileDotExt ('.' :: e)]
    | none => [.doRead .fileName f]

def pathActs (m : Bytes) : List Act :=
  .doRead .path m ::
    match rfind ('/' : Byte) m with
    | some (d, f) => .doRead .dirPath (d ++ [('/' : Byte)]) :: fileActs f
    | none => fileActs m

def queryActs (m : Bytes) : List Act := [.doRead .qmQuery m, .doRead .query m.tail]

def fragActs (m : Bytes) : List Act := [.doRead .sharpFrag m, .doRead .frag m.tail]

/-- Everything `read` does with a trimmed text, in its order. -/
def acts (u : Bytes) : List Act :=
  let (scheme, u₁) := matchSchemeColon u
  let (auth, u₂) := matchSsAuthority u₁
  let uri := scheme.getD [] ++ auth.getD []
  let (path, u₃) := matchPath u₂
  scheme.elim [] schemeActs ++ auth.elim [] (authorityActs uri) ++
    [.doRead .schemeAuthority uri] ++ path.elim [] pathActs ++
    if u₃ = [] then []
    else
      let (query, u₄) := matchQmQuery u₃
      let (frag, _) := matchSharpFrag u₄
      query.elim [] queryActs ++ frag.elim [] fragActs ++
        [.doRead .qmQueryFrag (query.getD [] ++ frag.getD [])]

/-! Reading. -/

/-- One step of a reader: `do_read` where there is a component with the tag. -/
def Act.run (asserts : Bool) (src : Codec) (comps : Comps) : Act → Except Stop Comps
  | doRead t s =>
    match comps t with
    | none => .ok comps
    | some c => (c.read asserts t src s).map fun c' => Function.update comps t (some c')
  | assignPort s uri =>
    match comps .autoPort with
    | none => .ok comps
    | some c => (c.assignPort s uri).map fun c' => Function.update comps .autoPort (some c')
  | fail e => .error (.err e)

def runActs (asserts : Bool) (src : Codec) : List Act → Comps → Except Stop Comps
  | [], comps => .ok comps
  | a :: as, comps => (a.run asserts src comps).bind (runActs asserts src as)

/-- `clear()`. -/
def Comps.clear (comps : Comps) : Comps := fun t => (comps t).map ReadComp.clear

/-- `uri_reader::read<SrcCodec>`, with its defaults `Clear` and `Trim`. -/
def read (asserts : Bool) (src : Codec) (u : Bytes) (comps : Comps) : Except Stop Comps :=
  runActs asserts src (acts (trim u)) comps.clear

/-- String components of one codec that hold the texts. -/
def strComps (codec : Codec) (l : List (Tag × Bytes)) : Comps :=
  fun t => (l.lookup t).map (ReadComp.str codec)

/-- Empty string components, as `read_uri` is given them. -/
def freshComps (codec : Codec) (tags : List Tag) : Comps :=
  strComps codec (tags.map fun t => (t, []))

/-- The text of a string component; an absent one counts as empty. -/
def Comps.text (comps : Comps) (t : Tag) : Bytes :=
  match comps t with
  | some (.str _ s) => s
  | _ => []

end Jkl.Uri
