import Jkl.Uri.DotSegments
import Jkl.Uri.Reader

/-! Normalising a URI: it is split, and each part is written in its normal form. -/
namespace Jkl.Uri

/-- What the loop of `normalize_pcnt_encoding_inplace` makes of the bytes: the two digits after
each `'%'` are upper-cased, and missing ones are an error. -/
def upperDigits : Bytes → Option Bytes
  | [] => some []
  | c :: s =>
    if c = '%' then
      match s with
      | a :: b :: s' =>
        if (unhex a b).isSome then (upperDigits s').map (c :: toUpper a :: toUpper b :: ·)
        else none
      | _ => none
    else (upperDigits s).map (c :: ·)

theorem length_upperDigits {s r : Bytes} (h : upperDigits s = some r) : r.length = s.length := by
  fun_induction upperDigits s generalizing r with
  | case1 => simp [← Option.some.inj h]
  | case2 a b s' hx ih =>
    obtain ⟨q, hq, rfl⟩ := Option.map_eq_some_iff.1 h
    simp [ih hq]
  | case3 => cases h
  | case4 => cases h
  | case5 c s hc ih =>
    obtain ⟨q, hq, rfl⟩ := Option.map_eq_some_iff.1 h
    simp [ih hq]

namespace Out

/-- `ascii_tolower_inplace` on what has been appended. -/
def lowerInplace (o : Out) : Out :=
  match o.stop with
  | some _ => o
  | none => ⟨o.text.map toLower, o.peak, none, by simpa using o.le_peak⟩

/-- `normalize_pcnt_encoding_inplace` on what has been appended. -/
def normalizePcntInplace (pcntEncoded : Bool) (o : Out) : Out :=
  if pcntEncoded then
    match o.stop with
    | some _ => o
    | none =>
      match h : upperDigits o.text with
      | some s => ⟨s, o.peak, none, by rw [length_upperDigits h]; exact o.le_peak⟩
      | none => ⟨o.text, o.peak, some (.err .invalidHex), o.le_peak⟩
  else o

end Out

variable (asserts : Bool) (dest codec : Codec)

/-- `pcntEncoded` for a component of the codec. -/
def pcntEncoded : Bool := (if dest = .asIs then codec else dest) = .urlEncoded

/-! `uri_normalize_append`, by the kinds of tags it tells apart. -/

/-- A scheme, with its colon or without, or a port. -/
def normalizeScheme (t : Tag) (s : Bytes) : Out :=
  (codecCvtAppend asserts t dest codec s).lowerInplace

/-- A user, a password, a userinfo, a query, a fragment, or both of the last, with their
delimiters or without. -/
def normalizeText (t : Tag) (s : Bytes) : Out :=
  (codecCvtAppend asserts t dest codec s).normalizePcntInplace (pcntEncoded dest codec)

/-- A host, with its port or without. -/
def normalizeHost (t : Tag) (s : Bytes) : Out :=
  (codecCvtAppend asserts t dest codec s).lowerInplace.normalizePcntInplace
    (pcntEncoded dest codec)

/-- A path or a part of one. -/
def normalizePath (t : Tag) (s : Bytes) : Out :=
  (removeDotSegmentsAppend asserts t dest codec s).normalizePcntInplace (pcntEncoded dest codec)

/-- The components a whole URI is read into. -/
def normalizeTags : List Tag := [.schemeColon, .userinfo, .hostPort, .path, .qmQueryFrag]

/-- A whole URI. -/
def normalizeUri (u : Bytes) : Out :=
  match read asserts codec u (freshComps codec normalizeTags) with
  | .error e => .halt e
  | .ok c =>
    normalizeScheme asserts dest codec .schemeColon (c.text .schemeColon) ++
      (if c.text .userinfo ≠ [] then
        normalizeText asserts dest codec .userinfo (c.text .userinfo) ++ .ok ['@']
      else .ok []) ++
      normalizeHost asserts dest codec .hostPort (c.text .hostPort) ++
      normalizePath asserts dest codec .path (c.text .path) ++
      normalizeText asserts dest codec .qmQueryFrag (c.text .qmQueryFrag)

end Jkl.Uri
