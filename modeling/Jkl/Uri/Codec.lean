import Jkl.Uri.Types
import Jkl.Lib.Cut
import Mathlib.Data.List.DropRight

/-! Character tables, percent encoding by category, and the codec of each component. -/
namespace Jkl.Uri

open Cut (find rfind findFirstOf)

/-! ASCII. -/

def isAlpha (c : Byte) : Bool := 0x41 ≤ c && c ≤ 0x5a || 0x61 ≤ c && c ≤ 0x7a

def isDigit (c : Byte) : Bool := 0x30 ≤ c && c ≤ 0x39

/-- `ascii_isspace`: tab, line feed, vertical tab, form feed, carriage return and blank. -/
def isSpace (c : Byte) : Bool := 0x09 ≤ c && c ≤ 0x0d || c = 0x20

def toLower (c : Byte) : Byte := if 0x41 ≤ c && c ≤ 0x5a then c + 0x20 else c

def toUpper (c : Byte) : Byte := if 0x61 ≤ c && c ≤ 0x7a then c - 0x20 else c

/-- `ascii_trim_inplace`. -/
def trim (s : Bytes) : Bytes := (s.dropWhile isSpace).rdropWhile isSpace

/-! Hexadecimal digits. -/

/-- A digit of `"0123456789ABCDEF"`. -/
def hexDigit (n : Byte) : Byte := if n < 10 then 0x30 + n else 0x37 + n

def appendHex (c : Byte) : Bytes := [hexDigit (c >>> 4), hexDigit (c &&& 0xf)]

/-- `g_lut_hex_to_dec`. -/
def hexToDec (c : Byte) : Byte :=
  if isDigit c then c - 0x30
  else if 0x41 ≤ c && c ≤ 0x46 then c - 0x37
  else if 0x61 ≤ c && c ≤ 0x66 then c - 0x57
  else 0xff

/-- `unhex` on the two bytes after a `'%'`. -/
def unhex (a b : Byte) : Option Byte :=
  let hi := hexToDec a
  let lo := hexToDec b
  if hi ||| lo ≠ 0xff then some (hi <<< 4 ||| lo) else none

/-! Percent encoding. -/

inductive NoEscCat where
  | query
  | frag
  | userinfo
  | host
  | path
deriving DecidableEq, Repr

/-- `g_lut_no_esc`: the categories a byte is left alone in. -/
def noEscTable (c : Byte) : List NoEscCat :=
  if isAlpha c || isDigit c || c ∈ lit "-._" then [.query, .frag, .userinfo, .host, .path]
  else if c ∈ lit "!$&()*,~" then [.query, .frag, .userinfo, .path]
  else if c ∈ lit "/;=@" then [.query, .frag, .path]
  else if c ∈ lit ":[]" then [.query, .frag, .host, .path]
  else if c = '+' then [.frag, .userinfo, .host, .path]
  -- '?', '\\', '^', '{', '|', '}'
  else if c ∈ ([0x3f, 0x5c, 0x5e, 0x7b, 0x7c, 0x7d] : Bytes) then [.query, .frag]
  else if c = '#' then [.frag]
  -- the grave accent
  else if c = 0x60 then [.query]
  else []

def isNoEsc (cat : NoEscCat) (c : Byte) : Bool := cat ∈ noEscTable c

/-- What `escape_append` makes of one byte; only a query has its blanks written as `'+'`. -/
def escapeByte (cat : NoEscCat) (c : Byte) : Bytes :=
  if cat = .query ∧ c = 0x20 then ['+']
  else if isNoEsc cat c then [c]
  else '%' :: appendHex c

def escapeAppend (cat : NoEscCat) (s : Bytes) : Bytes := s.flatMap (escapeByte cat)

def unescapeAppend (plusToSpace : Bool) : Bytes → Out
  | [] => .ok []
  | c :: s =>
    if plusToSpace ∧ c = '+' then .ok [0x20] ++ unescapeAppend plusToSpace s
    else if c = '%' then
      match s with
      | a :: b :: s' =>
        match unhex a b with
        | some v => .ok [v] ++ unescapeAppend plusToSpace s'
        | none => .halt (.err .invalidHex)
      | _ => .halt (.err .invalidHex)
    else .ok [c] ++ unescapeAppend plusToSpace s

/-! The codec of each component. -/

/-- `max_encode_size` of a text of the size. -/
def maxEncodeSize (t : Tag) (n : ℕ) : ℕ :=
  match t with
  | .scheme | .schemeColon | .port | .autoPort => n
  | _ => n * 3

/-- The branches of `encode_append` for `uri_userinfo_tag` and the composite tags below.
`asserts` tells whether the build checks `BOOST_ASSERT`. -/
def encodeUserinfo (s : Bytes) : Out :=
  match find (':' : Byte) s with
  | some (u, p) =>
    .ok (escapeAppend .userinfo u) ++ .ok [':'] ++ .ok (escapeAppend .userinfo p)
  | none => .ok (escapeAppend .userinfo s)

def encodeUserinfoAt (asserts : Bool) (s : Bytes) : Out :=
  if s = [] then .ok []
  else if asserts ∧ s.getLast? ≠ some ('@' : Byte) then .halt .assertion
  else encodeUserinfo s.dropLast

def encodeAuthority (s : Bytes) : Out :=
  match find ('@' : Byte) s with
  | some (i, h) => encodeUserinfo i ++ .ok ['@'] ++ .ok (escapeAppend .host h)
  | none => .ok (escapeAppend .host s)

def encodeSsAuthority (asserts : Bool) (s : Bytes) : Out :=
  if s = [] then .ok []
  else if asserts ∧ ¬lit "//" <+: s then .halt .assertion
  else .ok (lit "//") ++ if s.length < 2 then .halt .wild else encodeAuthority (s.drop 2)

def encodeSchemeAuthority (asserts : Bool) (s : Bytes) : Out :=
  match find (':' : Byte) s with
  | some (a, b) => .ok (a ++ [(':' : Byte)]) ++ encodeSsAuthority asserts b
  | none => encodeSsAuthority asserts s

def encodeQmQueryFrag (s : Bytes) : Out :=
  match find ('#' : Byte) s with
  | some (q, f) => .ok (escapeAppend .query q) ++ .ok (escapeAppend .frag ('#' :: f))
  | none => .ok (escapeAppend .query s)

def encodeAppend (asserts : Bool) (t : Tag) (s : Bytes) : Out :=
  match t with
  | .scheme | .schemeColon | .port | .autoPort => .ok s
  | .user | .password => .ok (escapeAppend .userinfo s)
  | .host | .hostPort => .ok (escapeAppend .host s)
  | .path | .dirPath | .file | .fileName | .fileExt | .fileDotExt => .ok (escapeAppend .path s)
  | .query | .qmQuery => .ok (escapeAppend .query s)
  | .frag | .sharpFrag => .ok (escapeAppend .frag s)
  | .userinfo => encodeUserinfo s
  | .userinfoAt => encodeUserinfoAt asserts s
  | .authority => encodeAuthority s
  | .ssAuthority => encodeSsAuthority asserts s
  | .schemeAuthority => encodeSchemeAuthority asserts s
  | .qmQueryFrag => encodeQmQueryFrag s

/-- The branch of `decode_append` for `uri_qm_query_frag_tag`. -/
def decodeQmQueryFrag (s : Bytes) : Out :=
  match find ('#' : Byte) s with
  | some (q, f) => unescapeAppend true q ++ unescapeAppend false ('#' :: f)
  | none => unescapeAppend true s

def decodeAppend (t : Tag) (s : Bytes) : Out :=
  match t with
  | .scheme | .schemeColon | .port | .autoPort => .ok s
  | .query | .qmQuery => unescapeAppend true s
  | .qmQueryFrag => decodeQmQueryFrag s
  | _ => unescapeAppend false s

/-- `uri_max_codec_cvt_size` of a text of the size. -/
def maxCodecCvtSize (t : Tag) (dest src : Codec) (n : ℕ) : ℕ :=
  if dest = .urlEncoded ∧ src = .urlDecoded then maxEncodeSize t n else n

/-- `uri_codec_cvt_append`. -/
def codecCvtAppend (asserts : Bool) (t : Tag) (dest src : Codec) (s : Bytes) : Out :=
  if dest = .urlDecoded ∧ src = .urlEncoded then decodeAppend t s
  else if dest = .urlEncoded ∧ src = .urlDecoded then encodeAppend asserts t s
  else .ok s

end Jkl.Uri
