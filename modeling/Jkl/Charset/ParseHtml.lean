import Mathlib.Data.List.Basic
import Mathlib.Tactic.Common

/-! `detect_bom` and the `parse_html` that finds out the charset of a text. The HTML parser and the
charset converter are parameters. -/
namespace Jkl.Charset

abbrev Bytes := List UInt8

/-- A string literal of the source. -/
def lit (s : String) : Bytes := s.toList.map Char.toUInt8

/-- `starts_with(char const*)`: the argument ends at its first zero byte. -/
def startsWith (s p : Bytes) : Bool := (p.takeWhile (· ≠ 0)).isPrefixOf s

/-- `subview(pos)`; nothing when it throws `std::out_of_range`. -/
def subview (s : Bytes) (pos : ℕ) : Option Bytes := if s.length < pos then none else some (s.drop pos)

/-- `detect_bom_result` of a text with a mark. -/
structure DetectBomResult where
  charset : Bytes
  bomLen : ℕ
deriving DecidableEq, Repr

/-- The literals of `detect_bom` in their order. `\0xEF` is an octal escape, the zero byte, and the
three characters behind it. -/
def bomTable : List (Bytes × DetectBomResult) :=
  [(lit "\x00xEF\x00xBB\x00xBF", ⟨lit "UTF-8", 3⟩),
    (lit "\x00xFE\x00xFF", ⟨lit "UTF-16 BE", 2⟩),
    (lit "\x00xFF\x00xFE", ⟨lit "UTF-16 LE", 2⟩),
    (lit "\x00x00\x00x00\x00xFE\x00xFF", ⟨lit "UTF-32 BE", 4⟩),
    (lit "\x00xFF\x00xFE\x00x00\x00x00", ⟨lit "UTF-32 LE", 4⟩),
    (lit "\x00xF7\x00x64\x00x4C", ⟨lit "UTF-1", 3⟩),
    (lit "\x00xDD\x00x73\x00x66\x00x73", ⟨lit "UTF-EBCDIC", 4⟩),
    (lit "\x00x0E\x00xFE\x00xFF", ⟨lit "SCSU", 3⟩),
    (lit "\x00xFB\x00xEE\x00x28", ⟨lit "BOCU-1", 3⟩),
    (lit "\x00x84\x00x31\x00x95\x00x33", ⟨lit "GB-18030", 4⟩)]

/-- `detect_bom`; the outer `none` is an exception, the inner one a text without a mark. -/
def detectBom (s : Bytes) : Option (Option DetectBomResult) :=
  match bomTable.find? fun e => startsWith s e.1 with
  | some e => some (some e.2)
  | none =>
    if startsWith s (lit "\x00x2B\x00x2F\x00x76") then
      match subview s 3 with
      | none => none
      | some s =>
        if startsWith s (lit "\x00x38\x00x2D") then some (some ⟨lit "UTF-7", 5⟩)
        else if startsWith s (lit "\x00x38") || startsWith s (lit "\x00x39") ||
            startsWith s (lit "\x00x2B") || startsWith s (lit "\x00x2F") then
          some (some ⟨lit "UTF-7", 4⟩)
        else some none
    else some none

/-- `ascii_isspace`: space, tab, line feed, vertical tab, form feed, carriage return. -/
def asciiIsspace (c : UInt8) : Bool := c = 0x20 || (0x09 ≤ c && c ≤ 0x0d)

/-- `ascii_trimed_view`. -/
def asciiTrimedView (s : Bytes) : Bytes :=
  ((s.dropWhile asciiIsspace).reverse.dropWhile asciiIsspace).reverse

/-- What is not in the library: `parse` is `gumbo_parse_with_options` with the caller's options,
`metaCharset` what `root() / "head" / "meta" - "charset"` finds in a document, and `toDst` the
converter. -/
structure Env (Doc ε : Type) where
  parse : Bytes → Option Doc
  metaCharset : Doc → Bytes
  toDst : (srcCs s dstCs : Bytes) → Except ε Bytes

/-- `aresult<gumbo_output>`; `failed` is `html_parse_err::failed`, and an exception that leaves a
`noexcept` function terminates the program. -/
inductive Parsed (Doc ε : Type) where
  | ok (o : Doc)
  | failed
  | cvtErr (e : ε)
  | terminated

/-- A call of `parse_html`: the source charsets handed to the converter, and what is returned. -/
structure Run (Doc ε : Type) where
  handed : List Bytes
  result : Parsed Doc ε

variable {Doc ε : Type}

/-- The `parse_html` without a charset. -/
def Env.parseHtml (env : Env Doc ε) (s : Bytes) : Parsed Doc ε :=
  match env.parse s with
  | some o => .ok o
  | none => .failed

/-- The end of `parse_html`, with the document if it was parsed already. -/
def Env.convert (env : Env Doc ε) (o : Option Doc) (s srcCs dstCs : Bytes) : Run Doc ε :=
  if srcCs.isEmpty || srcCs = dstCs then
    ⟨[], match o with
      | some o => .ok o
      | none => env.parseHtml s⟩
  else
    ⟨[srcCs], match env.toDst srcCs s dstCs with
      | .ok d => env.parseHtml d
      | .error e => .cvtErr e⟩

/-- `parse_html<CsCvt, SkipCsDetection>`. -/
def parseHtml (env : Env Doc ε) (skipCsDetection : Bool) (s srcCs dstCs : Bytes) : Run Doc ε :=
  if skipCsDetection then env.convert none s srcCs dstCs
  else
    match detectBom s with
    | none => ⟨[], .terminated⟩
    | some (some w) => env.convert none s w.charset dstCs
    | some none =>
      if srcCs.isEmpty then
        match env.parse s with
        | none => ⟨[], .failed⟩
        | some o => env.convert (some o) s (asciiTrimedView (env.metaCharset o)) dstCs
      else env.convert none s srcCs dstCs

section Marks

/-- The byte-order marks, the longer ones first. -/
def marks : List (Bytes × DetectBomResult) :=
  [([0x2b, 0x2f, 0x76, 0x38, 0x2d], ⟨lit "UTF-7", 5⟩),
    ([0x2b, 0x2f, 0x76, 0x38], ⟨lit "UTF-7", 4⟩),
    ([0x2b, 0x2f, 0x76, 0x39], ⟨lit "UTF-7", 4⟩),
    ([0x2b, 0x2f, 0x76, 0x2b], ⟨lit "UTF-7", 4⟩),
    ([0x2b, 0x2f, 0x76, 0x2f], ⟨lit "UTF-7", 4⟩),
    ([0x00, 0x00, 0xfe, 0xff], ⟨lit "UTF-32 BE", 4⟩),
    ([0xff, 0xfe, 0x00, 0x00], ⟨lit "UTF-32 LE", 4⟩),
    ([0xdd, 0x73, 0x66, 0x73], ⟨lit "UTF-EBCDIC", 4⟩),
    ([0x84, 0x31, 0x95, 0x33], ⟨lit "GB-18030", 4⟩),
    ([0xef, 0xbb, 0xbf], ⟨lit "UTF-8", 3⟩),
    ([0xf7, 0x64, 0x4c], ⟨lit "UTF-1", 3⟩),
    ([0x0e, 0xfe, 0xff], ⟨lit "SCSU", 3⟩),
    ([0xfb, 0xee, 0x28], ⟨lit "BOCU-1", 3⟩),
    ([0xfe, 0xff], ⟨lit "UTF-16 BE", 2⟩),
    ([0xff, 0xfe], ⟨lit "UTF-16 LE", 2⟩)]

/-- The longest mark a text begins with. -/
def markOf (s : Bytes) : Option (Bytes × DetectBomResult) := marks.find? fun e => e.1.isPrefixOf s

theorem markOf_mem {s : Bytes} {e : Bytes × DetectBomResult} (h : markOf s = some e) :
    e ∈ marks ∧ e.1 <+: s :=
  ⟨List.mem_of_find?_eq_some h, by simpa using List.find?_some h⟩

theorem markOf_longest {s : Bytes} {e e' : Bytes × DetectBomResult} (h : markOf s = some e)
    (he : e' ∈ marks) (hs : e'.1 <+: s) : e'.1.length ≤ e.1.length := by
  have hsorted : marks.Pairwise fun a b => b.1.length ≤ a.1.length := by decide
  obtain ⟨-, as, bs, hsplit, has⟩ := List.find?_eq_some_iff_append.mp h
  rw [hsplit] at he hsorted
  rcases List.mem_append.mp he with hmem | hmem
  · have hpos : e'.1.isPrefixOf s = true := by simpa using hs
    have hno := has e' hmem
    rw [hpos] at hno
    cases hno
  · rcases List.mem_cons.mp hmem with rfl | hmem
    · exact Nat.le_refl _
    · exact (List.pairwise_cons.mp (List.pairwise_append.mp hsorted).2.1).1 e' hmem

theorem markOf_eq_none {s : Bytes} : markOf s = none ↔ ∀ e ∈ marks, ¬ e.1 <+: s := by
  simp [markOf]

def utf8Mark : Bytes := [0xef, 0xbb, 0xbf]

/-- No other mark has the name of this one. -/
theorem eq_utf8Mark {e : Bytes × DetectBomResult} (he : e ∈ marks)
    (hname : e.2.charset = lit "UTF-8") : e.1 = utf8Mark := by
  have hall : ∀ e ∈ marks, e.2.charset = lit "UTF-8" → e.1 = utf8Mark := by decide
  exact hall e he hname

/-- No other mark begins as this one does. -/
theorem markOf_utf8 {s : Bytes} (h : utf8Mark <+: s) : markOf s = some (utf8Mark, ⟨lit "UTF-8", 3⟩) := by
  obtain ⟨rest, rfl⟩ := h
  rfl

end Marks

/-- The charset a text is in: that of its mark, else the one the caller names, else the one the
document names. -/
def documentedCs (env : Env Doc ε) (s srcCs : Bytes) : Option Bytes :=
  match markOf s with
  | some e => some e.2.charset
  | none =>
    if srcCs.isEmpty then
      match env.parse s with
      | none => none
      | some o =>
        let cs := asciiTrimedView (env.metaCharset o)
        if cs.isEmpty then none else some cs
    else some srcCs

/-- The converter is called with the charset the text is in, unless there is none or it is the one
that is asked for, and no mark is reported of a text without one. -/
def PicksDocumented (env : Env Doc ε) (s srcCs dstCs : Bytes) : Prop :=
  (parseHtml env false s srcCs dstCs).handed =
      ((documentedCs env s srcCs).filter (· ≠ dstCs)).toList ∧
    (markOf s = none → detectBom s = some none)

/-- The first literal is the empty string to `starts_with`. -/
theorem detectBom_eq (s : Bytes) : detectBom s = some (some ⟨lit "UTF-8", 3⟩) := by
  have hfirst : startsWith s (lit "\x00xEF\x00xBB\x00xBF") = true := by
    have hempty : (lit "\x00xEF\x00xBB\x00xBF").takeWhile (· ≠ 0) = [] := by decide
    rw [startsWith, hempty]
    rfl
  have hfind : bomTable.find? (fun e => startsWith s e.1) =
      some (lit "\x00xEF\x00xBB\x00xBF", ⟨lit "UTF-8", 3⟩) := by
    rw [bomTable]
    exact List.find?_cons_of_pos hfirst
  rw [detectBom, hfind]

theorem handed_eq (env : Env Doc ε) (s srcCs dstCs : Bytes) :
    (parseHtml env false s srcCs dstCs).handed = ((some (lit "UTF-8")).filter (· ≠ dstCs)).toList := by
  have hname : (lit "UTF-8").isEmpty = false := by decide
  unfold parseHtml
  rw [detectBom_eq]
  simp only [Bool.false_eq_true, if_false, Env.convert, hname, Bool.false_or, decide_eq_true_eq]
  by_cases hd : lit "UTF-8" = dstCs
  · rw [if_pos hd]
    simp [Option.filter, hd]
  · rw [if_neg hd]
    simp [Option.filter, hd]

/-- Every text is taken for one with the UTF-8 mark. -/
theorem picksDocumented_iff (env : Env Doc ε) (s srcCs dstCs : Bytes) :
    PicksDocumented env s srcCs dstCs ↔ utf8Mark <+: s := by
  unfold PicksDocumented
  rw [handed_eq, detectBom_eq]
  constructor
  · rintro ⟨hhanded, hmark⟩
    cases hm : markOf s with
    | none => simp at hmark; exact absurd hm hmark
    | some e =>
      obtain ⟨hmem, hpre⟩ := markOf_mem hm
      have hname : e.2.charset = lit "UTF-8" := by
        simp only [documentedCs, hm, Option.filter] at hhanded
        by_cases hd : lit "UTF-8" = dstCs <;> by_cases he : e.2.charset = dstCs <;>
          simp [hd, he] at hhanded ⊢
        exact hhanded.symm
      rwa [← eq_utf8Mark hmem hname]
  · intro h
    have hm := markOf_utf8 h
    constructor
    · simp only [documentedCs, hm]
    · intro hnone
      rw [hm] at hnone
      cases hnone

/-- A parser that keeps the text and a converter that keeps the charset. -/
def echo : Env Bytes Unit := ⟨some, fun _ => [], fun srcCs _ _ => .ok srcCs⟩

/-- A Latin-1 text without a mark is not converted. -/
theorem not_picksDocumented_latin1 :
    ¬ PicksDocumented echo (lit "caf\xe9") (lit "ISO-8859-1") (lit "UTF-8") := by
  unfold PicksDocumented
  decide

end Jkl.Charset
