import Jkl.Lib.Search
import Jkl.Uri.UrlDecode

/-! Data URLs: a header cut by searches, and data that one of two codecs decodes. -/
namespace Jkl.Uri

open Cut (find find_append find_eq_none)
open Search (indexFrom)

/-- `data_url_err`. -/
inductive DataUrlErr where
  | invliadMime
  | notDataUrl
  | noData
  | emptyTypeWithoutCharset
deriving DecidableEq, Repr

/-- The errors of `parse_data_url`, its own and those of the two codecs. -/
inductive DataUrlFail where
  | dataUrl (e : DataUrlErr)
  | uri (e : Stop)
  | decodeFailed
deriving DecidableEq, Repr

structure DataUrlParseResult where
  mime : Bytes
  charset : Bytes
  data : Bytes
  isBase64 : Bool
deriving DecidableEq

/-- The charset in a media type whose first `';'` is at `q`. -/
def charsetOf (u : Bytes) (q : ℕ) : Bytes :=
  match Search.findFrom (lit ";charset=").isPrefixOf u q with
  | none => []
  | some q =>
    let q := q + 9
    let e := (indexFrom (';' : Byte) u q).getD u.length
    ((u.drop q).take (e - q)).map toLower

/-- The mime type and the charset that the text before the data gives. -/
def parseMediaType (u : Bytes) : Except DataUrlErr (Bytes × Bytes) :=
  if u = [] then .ok (lit "text/plain", lit "us-ascii")
  else
    let q := indexFrom (';' : Byte) u 0
    let mime := (u.take (q.getD u.length)).map toLower
    let charset := q.elim [] (charsetOf u)
    if mime = [] then
      if charset = [] then .error .emptyTypeWithoutCharset else .ok (lit "text/plain", charset)
    else
      match indexFrom ('/' : Byte) mime 0 with
      | none => .error .invliadMime
      | some q =>
        if q = 0 ∨ q + 1 = mime.length then .error .invliadMime else .ok (mime, charset)

/-- What `decode_assign` of the base64 codec leaves in an empty string, unless it fails; `fill` is
what a string holds where it has grown. -/
def decodeData (base64 : Bytes → Option Bytes) (fill : Byte) (isBase64 : Bool) (data : Bytes) :
    Except DataUrlFail Bytes :=
  if isBase64 then
    match base64 data with
    | some v => .ok v
    | none => .error .decodeFailed
  else
    match urlDecodeAssign fill .user [] data with
    | (none, v) => .ok v
    | (some e, _) => .error (.uri e)

/-- `parse_data_url<Decode>`. -/
def parseDataUrl (base64 : Bytes → Option Bytes) (fill : Byte) (decode : Bool) (u : Bytes) :
    Except DataUrlFail DataUrlParseResult :=
  if ¬lit "data:" <+: u then .error (.dataUrl .notDataUrl)
  else
    match find (',' : Byte) (u.drop 5) with
    | none => .error (.dataUrl .noData)
    | some (u, data) =>
      let isBase64 := (lit ";base64").isSuffixOf u
      let u := if isBase64 then u.take (u.length - 7) else u
      match parseMediaType u with
      | .error e => .error (.dataUrl e)
      | .ok (mime, charset) =>
        if decode then
          (decodeData base64 fill isBase64 data).map fun data => ⟨mime, charset, data, isBase64⟩
        else .ok ⟨mime, charset, data, isBase64⟩

/-! What a data URL is built from. -/

/-- Text as one part of a header: in lower case, and without the characters that end a part. -/
def IsPlain (s : Bytes) : Prop := ∀ c ∈ s, c ≠ ';' ∧ c ≠ ',' ∧ toLower c = c

/-- A media type: `type/subtype`, a charset if there is one, and further parameters. -/
structure MediaType where
  type : Bytes
  subtype : Bytes
  charset : Option Bytes
  params : Bytes
  type_ne : type ≠ []
  subtype_ne : subtype ≠ []
  type_slash : ('/' : Byte) ∉ type
  mime_plain : IsPlain (type ++ ('/' : Byte) :: subtype)
  charset_plain : ∀ cs ∈ charset, IsPlain cs
  params_head : params = [] ∨ params.head? = some (';' : Byte)
  params_comma : (',' : Byte) ∉ params
  params_charset : ¬lit ";charset=" <:+: params
  params_base64 : ¬lit ";base64" <:+ params

namespace MediaType

variable (m : MediaType)

def mime : Bytes := m.type ++ ('/' : Byte) :: m.subtype

def charsetParam : Bytes := m.charset.elim [] fun cs => lit ";charset=" ++ cs

def text : Bytes := m.mime ++ m.charsetParam ++ m.params

end MediaType

/-- The second text is the first with the bytes of the set written as `'%'` and two hex digits, and
all others as they are. -/
inductive PercentEncoded (esc : Byte → Prop) : Bytes → Bytes → Prop where
  | nil : PercentEncoded esc [] []
  | plain {c : Byte} {s w : Bytes} (hc : ¬esc c) (h : PercentEncoded esc s w) :
      PercentEncoded esc (c :: s) (c :: w)
  | hex {c x y : Byte} {s w : Bytes} (hc : esc c) (hx : IsHex x) (hy : IsHex y)
      (hv : c = UInt8.ofNat (16 * hexValue x + hexValue y)) (h : PercentEncoded esc s w) :
      PercentEncoded esc (c :: s) ('%' :: x :: y :: w)

variable {base64 : Bytes → Option Bytes} {fill : Byte} {decode : Bool} {esc : Byte → Prop}
  {m : MediaType} {s u v w : Bytes}

theorem unescapeAppend_of_percentEncoded (hpct : esc '%') (h : PercentEncoded esc v w) :
    unescapeAppend false w = .ok v := by
  induction h with
  | nil => rfl
  | @plain c s w hc h ih =>
    have hne : c ≠ '%' := by
      rintro rfl
      exact hc hpct
    rw [unescapeAppend_cons hne (by simp), ih, Out.ok_append_ok]
    rfl
  | hex hc hx hy hv h ih =>
    rw [unescapeAppend_hex (unhex_of_isHex hx hy), ih, Out.ok_append_ok, hv]
    rfl

/-! The header. -/

namespace IsPlain

theorem not_semicolon (h : IsPlain s) : (';' : Byte) ∉ s := fun hm => (h _ hm).1 rfl

theorem not_comma (h : IsPlain s) : (',' : Byte) ∉ s := fun hm => (h _ hm).2.1 rfl

theorem of_all (h : (s.all fun c => c ≠ ';' ∧ c ≠ ',' ∧ toLower c = c) = true) : IsPlain s := by
  simpa [IsPlain] using h

theorem map_toLower (h : IsPlain s) : s.map toLower = s := by
  conv_rhs => rw [← List.map_id s]
  exact List.map_congr_left fun c hc => (h c hc).2.2

end IsPlain

namespace MediaType

theorem isPlain_mime : IsPlain m.mime := m.mime_plain

theorem comma_not_mem_text : (',' : Byte) ∉ m.text := by
  have hcs : (',' : Byte) ∉ m.charsetParam := by
    cases hc : m.charset with
    | none => simp [charsetParam, hc]
    | some cs =>
      have h : (',' : Byte) ∉ lit ";charset=" := by decide
      simpa [charsetParam, hc, h] using (m.charset_plain cs hc).not_comma
  have hmime : (',' : Byte) ∉ m.mime := isPlain_mime.not_comma
  simp [text, hmime, hcs, m.params_comma]

/-- What follows the mime type starts with a `';'`. -/
theorem text_eq : m.text = m.mime ∨ ∃ r, m.charsetParam ++ m.params = (';' : Byte) :: r := by
  cases hc : m.charset with
  | some cs =>
    refine .inr ⟨lit "charset=" ++ cs ++ m.params, ?_⟩
    simp [charsetParam, hc, lit]
  | none =>
    obtain hp | hp := m.params_head
    · simp [text, charsetParam, hc, hp]
    · obtain ⟨r, hr⟩ := List.head?_eq_some_iff.1 hp
      exact .inr ⟨r, by simp [charsetParam, hc, hr]⟩

theorem not_base64 : (lit ";base64").isSuffixOf m.text = false := by
  rw [← Bool.not_eq_true, List.isSuffixOf_iff_suffix]
  rintro ⟨x, hx⟩
  have hsemi : (';' : Byte) ∉ lit "base64" := by decide
  have hlast : Cut.rfind (';' : Byte) m.text = some (x, lit "base64") := by
    rw [← hx]
    exact Cut.rfind_append hsemi
  cases hp : Cut.rfind (';' : Byte) m.params with
  | some r =>
    -- the last ';' stands in the parameters
    obtain ⟨hparams, hr⟩ := Cut.rfind_eq_some.1 hp
    have htext : m.text = m.mime ++ m.charsetParam ++ r.1 ++ (';' : Byte) :: r.2 := by
      rw [text, hparams, List.append_assoc _ r.1]
    rw [htext, Cut.rfind_append hr] at hlast
    refine m.params_base64 ⟨r.1, ?_⟩
    rw [hparams, congrArg Prod.snd (Option.some.inj hlast)]
    rfl
  | none =>
    have hnil : m.params = [] := by
      obtain h | h := m.params_head
      · exact h
      · exact absurd (List.mem_of_mem_head? h) (Cut.rfind_eq_none.1 hp)
    cases hc : m.charset with
    | none =>
      have htext : m.text = m.mime := by simp [text, charsetParam, hc, hnil]
      rw [htext, Cut.rfind_eq_none.2 isPlain_mime.not_semicolon] at hlast
      cases hlast
    | some cs =>
      have hcs : (';' : Byte) ∉ lit "charset=" ++ cs := by
        have h : (';' : Byte) ∉ lit "charset=" := by decide
        simpa [h] using (m.charset_plain cs hc).not_semicolon
      have htext : m.text = m.mime ++ (';' : Byte) :: (lit "charset=" ++ cs) := by
        simp [text, charsetParam, hc, hnil, lit]
      rw [htext, Cut.rfind_append hcs] at hlast
      have := congrArg Prod.snd (Option.some.inj hlast)
      simp [lit] at this

theorem indexFrom_semicolon :
    indexFrom (';' : Byte) m.text 0 = none ∧ m.text = m.mime ∨
      indexFrom (';' : Byte) m.text 0 = some m.mime.length := by
  have hmime : (';' : Byte) ∉ m.mime := isPlain_mime.not_semicolon
  obtain h | ⟨r, hr⟩ := @text_eq m
  · refine .inl ⟨?_, h⟩
    rw [h]
    exact @Search.indexFrom_eq_none _ [] _ _ _ hmime
  · refine .inr ?_
    rw [text, List.append_assoc, hr]
    exact @Search.indexFrom_append _ [] _ _ _ _ hmime

/-- Where a charset starts, it ends at the next `';'` or with the text. -/
theorem charset_end {cs : Bytes} (hcs : IsPlain cs) :
    (indexFrom (';' : Byte) (s ++ cs ++ m.params) s.length).getD (s ++ cs ++ m.params).length =
      (s ++ cs).length := by
  obtain hp | hp := m.params_head
  · rw [hp, List.append_nil, Search.indexFrom_eq_none hcs.not_semicolon, Option.getD_none]
  · obtain ⟨r, hr⟩ := List.head?_eq_some_iff.1 hp
    rw [hr, Search.indexFrom_append hcs.not_semicolon, Option.getD_some]

theorem charsetOf_text : charsetOf m.text m.mime.length = m.charset.getD [] := by
  unfold charsetOf
  cases hc : m.charset with
  | none =>
    have htext : m.text = m.mime ++ m.params := by simp [text, charsetParam, hc]
    have hnone : Search.findFrom (lit ";charset=").isPrefixOf m.text m.mime.length = none := by
      rw [Search.findFrom_eq_none]
      intro j hj _
      rw [← Bool.not_eq_true, List.isPrefixOf_iff_prefix, htext, List.drop_append,
        List.drop_of_length_le hj, List.nil_append]
      intro hpre
      exact m.params_charset (hpre.isInfix.trans (List.drop_suffix _ _).isInfix)
    rw [hnone]
    rfl
  | some cs =>
    have hcs : IsPlain cs := m.charset_plain cs hc
    have htext : m.text = m.mime ++ (lit ";charset=" ++ cs ++ m.params) := by
      simp [text, charsetParam, hc]
    have hfind : Search.findFrom (lit ";charset=").isPrefixOf m.text m.mime.length =
        some m.mime.length := by
      rw [htext]
      refine Search.findFrom_append (fun j hj hj' => absurd hj (by omega)) ?_ le_rfl
      rw [List.isPrefixOf_iff_prefix, List.append_assoc]
      exact List.prefix_append _ _
    have hlen : m.mime.length + 9 = (m.mime ++ lit ";charset=").length := by simp [lit]
    have hsplit : m.text = m.mime ++ lit ";charset=" ++ cs ++ m.params := by simp [htext]
    rw [hfind]
    simp only [hlen, hsplit, charset_end hcs]
    rw [List.append_assoc _ cs, List.drop_left, List.length_append, Nat.add_sub_cancel_left,
      List.take_left, hcs.map_toLower, Option.getD_some]

theorem parseMediaType_text : parseMediaType m.text = .ok (m.mime, m.charset.getD []) := by
  have hne : m.mime ≠ [] := by simp [mime]
  have htext : m.text ≠ [] := by simp [text, mime]
  have hmime : m.mime.map toLower = m.mime := isPlain_mime.map_toLower
  have hslash : indexFrom ('/' : Byte) m.mime 0 = some m.type.length := by
    exact @Search.indexFrom_append _ [] _ m.subtype _ _ m.type_slash
  have htype : ¬(m.type.length = 0 ∨ m.type.length + 1 = m.mime.length) := by
    have h₁ := List.length_pos_iff.2 m.type_ne
    have h₂ := List.length_pos_iff.2 m.subtype_ne
    rw [mime, List.length_append, List.length_cons]
    omega
  have hends : ∀ q charset, (m.text.take q).map toLower = m.mime → charset = m.charset.getD [] →
      (if (m.text.take q).map toLower = [] then
        if charset = [] then .error .emptyTypeWithoutCharset else .ok (lit "text/plain", charset)
      else
        match indexFrom ('/' : Byte) ((m.text.take q).map toLower) 0 with
        | none => .error .invliadMime
        | some q' =>
          if q' = 0 ∨ q' + 1 = ((m.text.take q).map toLower).length then .error .invliadMime
          else .ok ((m.text.take q).map toLower, charset)) =
        (.ok (m.mime, m.charset.getD []) : Except DataUrlErr (Bytes × Bytes)) := by
    rintro q charset hq rfl
    simp only [hq, hne, hslash, htype, if_false]
  unfold parseMediaType
  rw [if_neg htext]
  obtain ⟨h, heq⟩ | h := @indexFrom_semicolon m
  · have hnone : m.charset.getD [] = [] := by
      have h₁ := congrArg List.length heq
      cases hc : m.charset with
      | none => rfl
      | some cs => simp [text, charsetParam, hc, lit] at h₁
    refine hends _ _ ?_ ?_
    · rw [h, Option.getD_none, List.take_length, heq, hmime]
    · rw [h, hnone]
      rfl
  · refine hends _ _ ?_ ?_
    · rw [h, Option.getD_some, text, List.append_assoc, List.take_left, hmime]
    · rw [h]
      exact charsetOf_text

end MediaType

/-- A URL put together from a media type and percent-encoded data is taken apart again, and text
without the scheme or without a `','` is rejected. -/
structure ParsesDataUrls (base64 : Bytes → Option Bytes) (fill : Byte) : Prop where
  inverts : ∀ (m : MediaType) (esc : Byte → Prop) (data w : Bytes), esc '%' →
    PercentEncoded esc data w →
      parseDataUrl base64 fill true (lit "data:" ++ m.text ++ (',' : Byte) :: w) =
        .ok ⟨m.mime, m.charset.getD [], data, false⟩
  rejects : ∀ decode u, ¬lit "data:" <+: u ∨ (',' : Byte) ∉ u →
    ∃ e, parseDataUrl base64 fill decode u = .error e

/-- Whatever the base64 codec does. -/
theorem parseDataUrl_parses (base64 : Bytes → Option Bytes) (fill : Byte) :
    ParsesDataUrls base64 fill := by
  constructor
  · intro m esc data w hpct hdata
    have hpre : lit "data:" <+: lit "data:" ++ m.text ++ (',' : Byte) :: w := by
      rw [List.append_assoc]
      exact List.prefix_append _ _
    have hdrop : (lit "data:" ++ m.text ++ (',' : Byte) :: w).drop 5 =
        m.text ++ (',' : Byte) :: w := by
      rw [List.append_assoc]
      exact @List.drop_left _ (lit "data:") _
    have hdecode : urlDecodeAssign fill .user [] w = (none, data) :=
      urlDecodeAssign_ok (unescapeAppend_of_percentEncoded hpct hdata)
    unfold parseDataUrl
    rw [if_neg (not_not.2 hpre), hdrop, find_append MediaType.comma_not_mem_text]
    simp only [MediaType.not_base64, Bool.false_eq_true, if_false,
      MediaType.parseMediaType_text, if_true, decodeData, hdecode, Except.map]
  · intro decode u hu
    unfold parseDataUrl
    by_cases hpre : lit "data:" <+: u
    · have hcomma : (',' : Byte) ∉ u.drop 5 := by
        obtain h | h := hu
        · exact absurd hpre h
        · exact fun hm => h (List.mem_of_mem_drop hm)
      rw [if_neg (not_not.2 hpre), find_eq_none.2 hcomma]
      exact ⟨_, rfl⟩
    · rw [if_pos hpre]
      exact ⟨_, rfl⟩

theorem parseDataUrl_html :
    parseDataUrl (fun _ => none) 0 true (lit "data:text/html;charset=utf-8;q=1,%3Cb%3e+") =
      .ok ⟨lit "text/html", lit "utf-8", lit "<b>+", false⟩ := by
  let m : MediaType :=
    { type := lit "text"
      subtype := lit "html"
      charset := some (lit "utf-8")
      params := lit ";q=1"
      type_ne := by decide
      subtype_ne := by decide
      type_slash := by decide
      mime_plain := .of_all (by decide)
      charset_plain := by
        rintro cs ⟨⟩
        exact .of_all (by decide)
      params_head := .inr (by decide)
      params_comma := by decide
      params_charset := by decide
      params_base64 := by decide }
  refine (parseDataUrl_parses (fun _ => none) 0).inverts m (· ∈ lit "%<>") (lit "<b>+")
    (lit "%3Cb%3e+") (by decide) ?_
  refine .hex (by decide) (by decide) (by decide) (by decide) (.plain (by decide) ?_)
  exact .hex (by decide) (by decide) (by decide) (by decide) (.plain (by decide) .nil)

end Jkl.Uri
