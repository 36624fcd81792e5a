import Jkl.Uri.DotSegmentsSpec
import Jkl.Uri.Normalize
import Mathlib.Data.List.Forall2

/-! When reading a normalised URI gives back what went in. -/
namespace Jkl.Uri

open Cut (findFirstOf findFirstOf_eq not_stop_of_mem)
open Rfc3986 (removeDotSegments)

variable {s r a b : Bytes} {c x y : Byte}

/-! Text in which only the case of letters differs. -/

/-- The bytes are the same, or both are letters. -/
def SameKind (x y : Byte) : Prop := x = y ∨ isAlpha x = true ∧ isAlpha y = true

/-- Each byte of one text is of the kind of the other's. -/
abbrev Recased (s r : Bytes) : Prop := List.Forall₂ SameKind s r

theorem sameKind_refl : SameKind x x := .inl rfl

theorem SameKind.trans {z : Byte} (h : SameKind x y) (h' : SameKind y z) : SameKind x z := by
  obtain rfl | h := h
  · exact h'
  · obtain rfl | h' := h'
    · exact .inr h
    · exact .inr ⟨h.1, h'.2⟩

theorem sameKind_toLower : ∀ x, SameKind x (toLower x) :=
  forall_byte (by unfold SameKind; decide +kernel)

theorem sameKind_toUpper : ∀ x, SameKind x (toUpper x) :=
  forall_byte (by unfold SameKind; decide +kernel)

/-- A byte that is no letter only stands for itself. -/
theorem SameKind.eq_iff (h : SameKind x y) (hc : isAlpha c = false) : x = c ↔ y = c := by
  obtain rfl | ⟨hx, hy⟩ := h
  · rfl
  · refine iff_of_false (fun e => ?_) fun e => ?_
    · rw [e, hc] at hx
      cases hx
    · rw [e, hc] at hy
      cases hy

namespace Recased

theorem refl : ∀ s, Recased s s := fun _ => List.forall₂_same.2 fun _ _ => sameKind_refl

theorem trans {q : Bytes} (h : Recased s r) (h' : Recased r q) : Recased s q := by
  induction h generalizing q with
  | nil => exact h'
  | cons hx _ ih =>
    cases h' with
    | cons hy h' => exact .cons (hx.trans hy) (ih h')

theorem lower : Recased s (s.map toLower) := by
  induction s with
  | nil => exact .nil
  | cons x s ih => exact .cons (sameKind_toLower x) ih

theorem append (h : Recased s r) (h' : Recased a b) : Recased (s ++ a) (r ++ b) :=
  List.rel_append h h'

theorem eq_nil_iff (h : Recased s r) : r = [] ↔ s = [] := by
  cases h <;> simp

theorem mem_iff (h : Recased s r) (hc : isAlpha c = false) : c ∈ r ↔ c ∈ s := by
  induction h with
  | nil => rfl
  | cons hx _ ih =>
    rw [List.mem_cons, List.mem_cons, ih, eq_comm, ← hx.eq_iff hc, eq_comm]

theorem head?_iff (h : Recased s r) (hc : isAlpha c = false) :
    r.head? = some c ↔ s.head? = some c := by
  cases h with
  | nil => rfl
  | cons hx _ => simpa using (hx.eq_iff hc).symm

theorem prefix_iff {w : Bytes} (h : Recased s r) (hw : ∀ c ∈ w, isAlpha c = false) :
    w <+: r ↔ w <+: s := by
  induction w generalizing s r with
  | nil => simp
  | cons c w ih =>
    cases h with
    | nil => simp
    | cons hx h =>
      rw [List.cons_prefix_cons, List.cons_prefix_cons,
        ih h fun d hd => hw d (List.mem_cons_of_mem c hd), eq_comm,
        ← hx.eq_iff (hw c List.mem_cons_self), eq_comm]

theorem reverse (h : Recased s r) : Recased s.reverse r.reverse := List.rel_reverse h

theorem getLast?_iff (h : Recased s r) (hc : isAlpha c = false) :
    r.getLast? = some c ↔ s.getLast? = some c := by
  rw [← List.head?_reverse, ← List.head?_reverse]
  exact h.reverse.head?_iff hc

theorem avoids {ds : Bytes} (h : Recased s r) (hd : ∀ d ∈ ds, isAlpha d = false)
    (hs : ∀ x ∈ s, x ∉ ds) : ∀ x ∈ r, x ∉ ds :=
  fun x hx hxd => hs x ((h.mem_iff (hd x hxd)).1 hx) hxd

theorem not_isAlpha_of_isSpace : ∀ x, isSpace x = true → isAlpha x = false :=
  forall_byte (by decide +kernel)

theorem isSpace_getLast (h : Recased s r)
    (hs : ∀ c, s.getLast? = some c → isSpace c = false) :
    ∀ c, r.getLast? = some c → isSpace c = false := by
  intro c hc
  by_contra hsp
  have hsp : isSpace c = true := by simpa using hsp
  have := hs c ((h.getLast?_iff (not_isAlpha_of_isSpace c hsp)).1 hc)
  rw [hsp] at this
  cases this

theorem isSpace_head (h : Recased s r) (hs : ∀ c, s.head? = some c → isSpace c = false) :
    ∀ c, r.head? = some c → isSpace c = false := by
  intro c hc
  by_contra hsp
  have hsp : isSpace c = true := by simpa using hsp
  have := hs c ((h.head?_iff (not_isAlpha_of_isSpace c hsp)).1 hc)
  rw [hsp] at this
  cases this

end Recased

/-! Percent-encoding digits in upper case. -/

/-- The text with the two bytes after each `'%'` in upper case. -/
def upperPct : Bytes → Bytes
  | [] => []
  | c :: s =>
    if c = '%' then
      match s with
      | a :: b :: s' => c :: toUpper a :: toUpper b :: upperPct s'
      | _ => c :: s
    else c :: upperPct s

theorem upperPct_cons (hc : c ≠ '%') : upperPct (c :: s) = c :: upperPct s := by
  rw [upperPct.eq_def]
  simp only [hc, if_false]

theorem upperPct_hex :
    upperPct (('%' : Byte) :: x :: y :: s) =
      ('%' : Byte) :: toUpper x :: toUpper y :: upperPct s := rfl

theorem upperDigits_eq (h : upperDigits s = some r) : r = upperPct s := by
  fun_induction upperDigits s generalizing r with
  | case1 => exact (Option.some.inj h).symm
  | case2 a b s' hx ih =>
    obtain ⟨q, hq, rfl⟩ := Option.map_eq_some_iff.1 h
    rw [ih hq, upperPct_hex]
  | case3 => cases h
  | case4 => cases h
  | case5 c s hc ih =>
    obtain ⟨q, hq, rfl⟩ := Option.map_eq_some_iff.1 h
    rw [ih hq, upperPct_cons hc]

theorem recased_upperPct : Recased s (upperPct s) := by
  fun_induction upperPct s with
  | case1 => exact .nil
  | case2 a b s' ih =>
    exact .cons sameKind_refl (.cons (sameKind_toUpper a) (.cons (sameKind_toUpper b) ih))
  | case3 s => exact Recased.refl _
  | case4 c s hc ih => exact .cons sameKind_refl ih

theorem upperDigits_cons (hc : c ≠ '%') :
    upperDigits (c :: s) = (upperDigits s).map (c :: ·) := by
  rw [upperDigits.eq_def]
  simp only [hc, if_false]

theorem upperDigits_hex (h : (upperDigits (('%' : Byte) :: x :: y :: s)).isSome = true) :
    (unhex x y).isSome = true ∧ (upperDigits s).isSome = true := by
  rw [upperDigits.eq_def] at h
  simp only [if_true] at h
  split_ifs at h with hx
  · exact ⟨hx, by simpa using h⟩
  · cases h

/-- No escape reaches across a byte that is neither a digit nor a `'%'`. -/
theorem upperPct_append (hhex : hexToDec c = 0xff)
    (h : (upperDigits (s ++ c :: r)).isSome = true) :
    upperPct (s ++ c :: r) = upperPct s ++ upperPct (c :: r) := by
  have hbad : ∀ x y, (unhex x y).isSome = true → x ≠ c ∧ y ≠ c := by
    intro x y hxy
    obtain ⟨v, hv⟩ := Option.isSome_iff_exists.1 hxy
    obtain ⟨hx, hy⟩ := unhex_eq_some hv
    exact ⟨fun e => hx (e ▸ hhex), fun e => hy (e ▸ hhex)⟩
  fun_induction upperPct s with
  | case1 => rfl
  | case2 x y s' ih =>
    have hs := (upperDigits_hex h).2
    change upperPct (('%' : Byte) :: x :: y :: (s' ++ c :: r)) = _
    rw [upperPct_hex, ih hs]
    rfl
  | case3 s hs =>
    -- the escape would have to take the byte
    rcases s with - | ⟨x, - | ⟨y, s⟩⟩
    · cases r with
      | nil => cases h
      | cons d r => exact absurd rfl (hbad _ _ (upperDigits_hex h).1).1
    · exact absurd rfl (hbad _ _ (upperDigits_hex h).1).2
    · exact absurd rfl (hs x y s)
  | case4 x s hx ih =>
    rw [List.cons_append, upperDigits_cons hx, Option.isSome_map] at h
    rw [List.cons_append, upperPct_cons hx, ih h]
    rfl

/-! What normalising leaves of a URI: its parts in a row, with the `"//"` of the authority
gone. -/

structure Flat where
  schemeColon : Bytes
  authority : Bytes
  path : Bytes
  query : Bytes
  frag : Bytes
  schemeColon_eq : schemeColon = [] ∨
    ∃ a, schemeColon = a ++ [(':' : Byte)] ∧ a ≠ [] ∧ ∀ x ∈ a, x ∉ lit ":/?#"
  schemeColon_head : ∀ c, schemeColon.head? = some c → isSpace c = false
  authority_avoids : ∀ x ∈ authority, x ∉ lit "/?#"
  path_rooted : path = [] ∨ path.head? = some ('/' : Byte)
  path_avoids : ∀ x ∈ path, x ∉ lit "?#"
  query_eq : query = [] ∨ ∃ q, query = ('?' : Byte) :: q ∧ ∀ x ∈ q, x ≠ '#'
  frag_head : ∀ c, frag.head? = some c → c = '#'

namespace Flat

variable (f : Flat)

def queryFrag : Bytes := f.query ++ f.frag

/-- What is left from the path on. -/
def rest : Bytes := f.path ++ f.queryFrag

def text : Bytes := f.schemeColon ++ f.authority ++ f.rest

variable {f}

theorem head_queryFrag (h : f.queryFrag.head? = some c) : c ∈ lit "?#" := by
  rw [queryFrag, List.head?_append] at h
  obtain hq | ⟨q, hq, -⟩ := f.query_eq
  · rw [hq] at h
    rw [f.frag_head c (by simpa using h)]
    decide
  · rw [hq] at h
    rw [← Option.some.inj h]
    decide

theorem head_rest (h : f.rest.head? = some c) : c ∈ lit "/?#" := by
  rw [rest, List.head?_append] at h
  obtain hp | hp := f.path_rooted
  · rw [hp] at h
    exact List.mem_cons_of_mem _ (head_queryFrag (by simpa using h))
  · rw [hp] at h
    rw [← Option.some.inj h]
    decide

theorem isSpace_head_rest (h : f.rest.head? = some c) : isSpace c = false := by
  have key : ∀ c ∈ lit "/?#", isSpace c = false := by decide +kernel
  exact key c (head_rest h)

/-- A scheme that is left is still read as one. -/
theorem matchSchemeColon_text (h : f.schemeColon ≠ []) (v : Bytes) :
    matchSchemeColon (f.schemeColon ++ v) = (some f.schemeColon, v) := by
  obtain ⟨a, ha, -, hav⟩ := f.schemeColon_eq.resolve_left h
  rw [ha, List.append_assoc]
  exact matchSchemeColon_eq hav

/-- A path that begins with `"//"` loses at least that to an authority. -/
theorem path_shorter (h : lit "//" <+: f.rest) :
    ((matchPath (matchSsAuthority f.rest).2).1.getD []).length < f.path.length := by
  have hcut : findFirstOf (fun c => c ∈ lit "?#") f.rest = (f.path, f.queryFrag) :=
    findFirstOf_eq (by simpa using f.path_avoids) fun c hc => by simpa using head_queryFrag hc
  obtain ⟨m, hm, hav⟩ : ∃ m, (matchSsAuthority f.rest).1 = some (lit "//" ++ m) ∧
      ∀ x ∈ m, x ∉ lit "/?#" := by
    rw [matchSsAuthority, if_pos h]
    exact ⟨_, rfl, fun x hx => by simpa using not_stop_of_mem hx⟩
  have happ := @matchSsAuthority_append f.rest
  have happ' := @matchPath_append (matchSsAuthority f.rest).2
  rw [hm, Option.getD_some, ← happ', ← List.append_assoc] at happ
  -- up to the query, the text is the path, and also an authority and a path
  have hpath : f.path = lit "//" ++ m ++ (matchPath (matchSsAuthority f.rest).2).1.getD [] := by
    have hslash : ∀ x ∈ lit "//", x ∉ lit "?#" := by decide +kernel
    have hall : ∀ x ∈ lit "//" ++ m ++ (matchPath (matchSsAuthority f.rest).2).1.getD [],
        x ∉ lit "?#" := by
      intro x hx
      obtain hx | hx := List.mem_append.1 hx
      · obtain hx | hx := List.mem_append.1 hx
        · exact hslash x hx
        · exact fun hd => hav x hx (List.mem_cons_of_mem _ hd)
      · exact not_mem_matchPath hx
    have hend : ∀ c, (matchPath (matchSsAuthority f.rest).2).2.head? = some c →
        c ∈ lit "?#" := fun c hc => by
      obtain rfl | rfl := head_matchPath hc <;> decide
    rw [← happ, findFirstOf_eq (by simpa using hall) (by simpa using hend)] at hcut
    exact (congrArg Prod.fst hcut).symm
  rw [hpath]
  simp [lit]
  omega

theorem prefix_rest : lit "//" <+: f.rest ↔ lit "//" <+: f.path := by
  have hqf : ∀ c w, f.queryFrag = c :: w → c ≠ '/' := by
    intro c w h e
    have := head_queryFrag (c := c) (by rw [h]; rfl)
    rw [e] at this
    revert this
    decide
  refine ⟨fun h => ?_, fun h => h.trans (List.prefix_append _ _)⟩
  unfold rest at h
  rcases hp : f.path with - | ⟨c, - | ⟨d, w⟩⟩
  · rw [hp] at h
    cases hq : f.queryFrag with
    | nil => simp [hq, lit] at h
    | cons x w =>
      have := hqf x w hq
      simp [hq, lit, this.symm] at h
  · rw [hp] at h
    cases hq : f.queryFrag with
    | nil => simp [hq, lit] at h
    | cons x w =>
      have := hqf x w hq
      simp [hq, lit, this.symm] at h
  · rw [hp] at h
    simpa [lit] using h

theorem trim_text (hh : f.schemeColon ≠ [] ∨ f.authority = [])
    (hl : ∀ c, f.text.getLast? = some c → isSpace c = false) : trim f.text = f.text := by
  refine trim_eq_self (fun c hc => ?_) hl
  rw [text, List.append_assoc, List.head?_append] at hc
  cases hs : f.schemeColon with
  | cons x w =>
    rw [hs] at hc
    exact f.schemeColon_head c (by rw [hs]; exact hc)
  | nil =>
    have ha := hh.resolve_left (not_not.2 hs)
    rw [hs, ha] at hc
    exact isSpace_head_rest (by simpa using hc)

/-- What is left without an authority is read part by part. -/
theorem parts_text (ha : f.authority = []) (hp : ¬lit "//" <+: f.path) :
    (parts f.text).schemeColon = (if f.schemeColon = [] then none else some f.schemeColon) ∧
      (parts f.text).ssAuthority = none ∧ (parts f.text).path.getD [] = f.path ∧
      (parts f.text).qmQuery.getD [] = f.query ∧ (parts f.text).sharpFrag.getD [] = f.frag := by
  have hscheme : matchSchemeColon f.text =
      (if f.schemeColon = [] then none else some f.schemeColon, f.rest) := by
    rw [text, ha, List.append_nil]
    split_ifs with h
    · rw [h, List.nil_append]
      exact matchSchemeColon_none fun c => head_rest
    · exact matchSchemeColon_text h _
  have hauth := matchSsAuthority_none (prefix_rest.not.2 hp)
  obtain ⟨hpath, hpath'⟩ := matchPath_eq f.path_avoids fun c => head_queryFrag (f := f)
  have hquery : (matchQmQuery f.queryFrag).1.getD [] = f.query ∧
      (matchQmQuery f.queryFrag).2 = f.frag := by
    unfold queryFrag
    obtain hq | ⟨q, hq, hav⟩ := f.query_eq
    · have hne : f.frag.head? ≠ some ('?' : Byte) := fun e => by
        have := f.frag_head _ e
        revert this
        decide
      rw [hq, List.nil_append, matchQmQuery_none hne]
      exact ⟨rfl, rfl⟩
    · rw [hq, matchQmQuery_eq hav f.frag_head]
      exact ⟨rfl, rfl⟩
  simp only [parts, hscheme, hauth]
  unfold rest
  rw [hpath', hpath, hquery.1, hquery.2]
  refine ⟨?_, ?_, ?_, ?_, matchSharpFrag_eq f.frag_head⟩ <;> trivial

theorem trim_of_last {n : Bytes} (hl : ∀ c, n.getLast? = some c → isSpace c = false) :
    trim n = n.dropWhile isSpace := by
  obtain ⟨w, hw⟩ := List.dropWhile_suffix isSpace (l := n)
  rw [trim, List.rdropWhile_eq_self_iff]
  intro hne
  have hlast : n.getLast? = some ((n.dropWhile isSpace).getLast hne) := by
    nth_rewrite 1 [← hw]
    rw [List.getLast?_append, List.getLast?_eq_some_getLast hne]
    rfl
  simp [hl _ hlast]

theorem not_slashes {a v : Bytes} (ha : a ≠ []) (hav : ∀ x ∈ a, x ∉ lit "/?#") :
    ¬lit "//" <+: a ++ v := by
  cases a with
  | nil => exact absurd rfl ha
  | cons x a =>
    intro h
    have hx : ('/' : Byte) = x := by
      simp only [lit, List.cons_append] at h
      exact (List.cons_prefix_cons.1 h).1
    exact hav x List.mem_cons_self (hx ▸ by decide)

theorem head_matchPath_of_not_mem {v : Bytes} (h : v.head? = some c) (hc : c ∉ lit "?#") :
    ((matchPath v).1.getD []).head? = some c := by
  have happ := @matchPath_append v
  cases hp : (matchPath v).1.getD [] with
  | nil =>
    rw [hp, List.nil_append] at happ
    obtain rfl | rfl := head_matchPath (by rw [happ]; exact h)
    · exact absurd (by decide) hc
    · exact absurd (by decide) hc
  | cons d w =>
    rw [hp] at happ
    rw [← happ] at h
    exact h

/-- White space at the start is trimmed off the authority; the rest does not begin with any. -/
theorem trim_schemeless (hs : f.schemeColon = [])
    (hl : ∀ c, f.text.getLast? = some c → isSpace c = false) :
    trim f.text = f.authority.dropWhile isSpace ++ f.rest := by
  have htext : f.text = f.authority ++ f.rest := by rw [text, hs, List.nil_append]
  rw [trim_of_last hl, htext, List.dropWhile_append]
  split_ifs with hsp
  · rw [List.isEmpty_iff.1 hsp, List.nil_append]
    cases hr : f.rest with
    | nil => rfl
    | cons c w =>
      have := isSpace_head_rest (f := f) (c := c) (by rw [hr]; rfl)
      rw [List.dropWhile_cons_of_neg (by simp [this])]
  · rfl

theorem dropWhile_isSpace_colon {s : Bytes} (h : s.head? = some (':' : Byte)) :
    s.dropWhile isSpace = s := by
  cases s with
  | nil => rfl
  | cons x w =>
    have hx : x = (':' : Byte) := Option.some.inj h
    have hx' : ¬isSpace x = true := by
      rw [hx]
      decide
    rw [List.dropWhile_cons_of_neg hx']

/-- A text that is read without a scheme does not begin with a colon. -/
theorem head_ne_colon {v : Bytes} (h : (matchSchemeColon v).1 = none) :
    v.head? ≠ some (':' : Byte) := by
  intro hc
  cases v with
  | nil => cases hc
  | cons x w =>
    have hx : x = (':' : Byte) := Option.some.inj hc
    have hcolon := @matchSchemeColon_eq [] w (by simp)
    rw [List.nil_append, ← hx] at hcolon
    rw [hcolon] at h
    cases h

/-- Without a scheme, the text is read from the first byte of the authority that is no white
space. -/
theorem no_authority_schemeless (hs : f.schemeColon = [])
    (hl : ∀ c, f.text.getLast? = some c → isSpace c = false)
    (hnone : (parts (trim f.text)).schemeColon = none)
    (hpath : (parts (trim f.text)).path.getD [] = f.path) :
    (parts (trim f.text)).ssAuthority = none ∧ f.authority.head? ≠ some (':' : Byte) := by
  have htrim := trim_schemeless hs hl
  have hm : matchSchemeColon (trim f.text) = (none, trim f.text) := by
    have happ := @matchSchemeColon_append (trim f.text)
    have hfst : (matchSchemeColon (trim f.text)).1 = none := hnone
    rw [hfst] at happ
    exact Prod.ext hfst happ
  constructor
  · simp only [parts, hm] at hpath ⊢
    rw [htrim] at hpath ⊢
    by_cases hsp : f.authority.dropWhile isSpace = []
    · -- the authority was white space
      rw [hsp, List.nil_append] at hpath ⊢
      by_contra h
      have hp : lit "//" <+: f.rest := by
        by_contra hp
        exact h (by rw [matchSsAuthority_none hp])
      have := path_shorter hp
      rw [hpath] at this
      exact lt_irrefl _ this
    · refine congrArg Prod.fst (matchSsAuthority_none (not_slashes hsp fun x hx => ?_))
      exact f.authority_avoids x ((List.dropWhile_sublist isSpace).subset hx)
  · intro hc
    refine head_ne_colon hnone ?_
    rw [htrim, dropWhile_isSpace_colon hc, List.head?_append, hc]
    rfl

/-- If such a text were read as the URI it came from, then without an authority, and what is
left of it would not begin with a colon. -/
theorem no_authority (ha : f.authority ≠ [])
    (hl : ∀ c, f.text.getLast? = some c → isSpace c = false)
    (hread : (parts (trim f.text)).schemeColon.elim True fun m => m.length ≠ 1)
    (hscheme : (parts (trim f.text)).text .scheme = f.schemeColon.dropLast)
    (hpath : (parts (trim f.text)).text .path = f.path) :
    (parts (trim f.text)).ssAuthority = none ∧ f.authority.head? ≠ some (':' : Byte) := by
  rw [Parts.text_scheme hread] at hscheme
  rw [Parts.text_path] at hpath
  by_cases hs : f.schemeColon = []
  · refine no_authority_schemeless hs hl ?_ hpath
    cases h : (parts (trim f.text)).schemeColon with
    | none => rfl
    | some m =>
      rw [h] at hread hscheme
      rw [hs] at hscheme
      refine absurd ?_ hread
      rw [schemeColon_parts h, show m.dropLast = [] from hscheme]
      rfl
  · rw [trim_text (.inl hs) hl] at *
    have hm : matchSchemeColon f.text = (some f.schemeColon, f.authority ++ f.rest) := by
      rw [text, List.append_assoc]
      exact matchSchemeColon_text hs _
    have hn := matchSsAuthority_none (not_slashes (v := f.rest) ha f.authority_avoids)
    simp only [parts, hm, hn] at hpath ⊢
    refine ⟨trivial, fun hc => ?_⟩
    -- the path would begin with the colon
    have hhead : (f.authority ++ f.rest).head? = some (':' : Byte) := by
      rw [List.head?_append, hc]
      rfl
    have hcolon := head_matchPath_of_not_mem hhead (by decide)
    rw [hpath] at hcolon
    obtain hp | hp := f.path_rooted
    · simp [hp] at hcolon
    · rw [hp] at hcolon
      exact absurd hcolon (by decide)

end Flat

/-! What normalising writes. -/

variable {asserts : Bool} {u : Bytes} {o p : Out}

theorem Out.of_append_none (h : (o ++ p).stop = none) :
    o.stop = none ∧ p.stop = none ∧ (o ++ p).text = o.text ++ p.text := by
  cases ho : o.stop with
  | some e =>
    rw [Out.append_of_stop ho, ho] at h
    cases h
  | none =>
    obtain ⟨ht, -, hs⟩ := Out.append_of_none (p := p) ho
    exact ⟨rfl, hs.symm.trans h, ht⟩

theorem Out.lowerInplace_spec (h : o.lowerInplace.stop = none) :
    o.stop = none ∧ o.lowerInplace.text = o.text.map toLower := by
  unfold lowerInplace at h ⊢
  split at h
  · next e he => exact absurd (he.symm.trans h) (by simp)
  · next he => exact ⟨he, rfl⟩

theorem Out.normalizePcnt_spec (h : (o.normalizePcntInplace true).stop = none) :
    o.stop = none ∧ (upperDigits o.text).isSome = true ∧
      (o.normalizePcntInplace true).text = upperPct o.text := by
  unfold normalizePcntInplace at h ⊢
  rw [if_pos rfl] at h ⊢
  split at h
  · next e he => exact absurd (he.symm.trans h) (by simp)
  · next he =>
    split at h
    · next r hr => exact ⟨he, by rw [hr]; rfl, upperDigits_eq hr⟩
    · cases h

theorem normalizeScheme_spec {t : Tag}
    (h : (normalizeScheme asserts .urlEncoded .urlEncoded t s).stop = none) :
    (normalizeScheme asserts .urlEncoded .urlEncoded t s).text = s.map toLower := by
  unfold normalizeScheme at h ⊢
  rw [(Out.lowerInplace_spec h).2, codecCvtAppend_copy (.inl rfl), Out.text_ok]

theorem normalizeText_spec {t : Tag}
    (h : (normalizeText asserts .urlEncoded .urlEncoded t s).stop = none) :
    (upperDigits s).isSome = true ∧
      (normalizeText asserts .urlEncoded .urlEncoded t s).text = upperPct s := by
  unfold normalizeText at h ⊢
  have := (Out.normalizePcnt_spec h).2
  rwa [codecCvtAppend_copy (.inl rfl), Out.text_ok] at this

theorem normalizeHost_spec {t : Tag}
    (h : (normalizeHost asserts .urlEncoded .urlEncoded t s).stop = none) :
    (normalizeHost asserts .urlEncoded .urlEncoded t s).text = upperPct (s.map toLower) := by
  unfold normalizeHost at h ⊢
  obtain ⟨hl, -, ht⟩ := Out.normalizePcnt_spec h
  refine ht.trans ?_
  rw [(Out.lowerInplace_spec hl).2, codecCvtAppend_copy (.inl rfl), Out.text_ok]

theorem normalizePath_spec (hp : s = [] ∨ s.head? = some ('/' : Byte))
    (h : (normalizePath asserts .urlEncoded .urlEncoded .path s).stop = none) :
    (normalizePath asserts .urlEncoded .urlEncoded .path s).text =
      upperPct (removeDotSegments s) := by
  unfold normalizePath at h ⊢
  refine (Out.normalizePcnt_spec h).2.2.trans ?_
  rw [(removeDotSegmentsAppend_yields hp).2]

/-- The parts of a text with an authority, and of what normalising makes of it. -/
theorem normalizeUri_text (hp : (parts (trim u)).text .path = [] ∨
      ((parts (trim u)).text .path).head? = some ('/' : Byte))
    (h : (normalizeUri asserts .urlEncoded .urlEncoded u).stop = none) :
    (∀ e, .fail e ∉ acts (trim u)) ∧
      (upperDigits (parts (trim u)).queryFrag).isSome = true ∧
      (normalizeUri asserts .urlEncoded .urlEncoded u).text =
        ((parts (trim u)).schemeColon.getD []).map toLower ++
          ((if (parts (trim u)).text .userinfo ≠ [] then
            upperPct ((parts (trim u)).text .userinfo) ++ [('@' : Byte)] else []) ++
          upperPct (((parts (trim u)).text .hostPort).map toLower)) ++
          (upperPct (removeDotSegments ((parts (trim u)).text .path)) ++
          upperPct (parts (trim u)).queryFrag) := by
  unfold normalizeUri at h ⊢
  cases hr : read asserts .urlEncoded u (freshComps .urlEncoded normalizeTags) with
  | error e => simp [hr] at h
  | ok c =>
    have htext : ∀ t ∈ normalizeTags, c.text t = (parts (trim u)).text t := fun t ht =>
      text_of_fresh hr ht
    have hs := htext .schemeColon (by decide)
    rw [Parts.text_schemeColon (schemeColon_of_read hr)] at hs
    have hq := htext .qmQueryFrag (by decide)
    rw [Parts.text_qmQueryFrag] at hq
    simp only [hr, hs, hq, htext .userinfo (by decide), htext .hostPort (by decide),
      htext .path (by decide)] at h ⊢
    obtain ⟨h₄, hqf, ht₄⟩ := Out.of_append_none h
    obtain ⟨h₃, hpath, ht₃⟩ := Out.of_append_none h₄
    obtain ⟨h₂, hhost, ht₂⟩ := Out.of_append_none h₃
    obtain ⟨hscheme, hinfo, ht₁⟩ := Out.of_append_none h₂
    obtain ⟨hdigits, hqf'⟩ := normalizeText_spec hqf
    refine ⟨fail_not_mem hr, hdigits, ?_⟩
    rw [ht₄, ht₃, ht₂, ht₁, hqf', normalizePath_spec hp hpath, normalizeHost_spec hhost,
      normalizeScheme_spec hscheme]
    have hinfo' : (if (parts (trim u)).text .userinfo ≠ [] then
          normalizeText asserts .urlEncoded .urlEncoded .userinfo ((parts (trim u)).text .userinfo) ++
            .ok ['@'] else Out.ok []).text =
        if (parts (trim u)).text .userinfo ≠ [] then
          upperPct ((parts (trim u)).text .userinfo) ++ [('@' : Byte)] else [] := by
      split_ifs at hinfo ⊢ with hne
      · obtain ⟨hi, -, hit⟩ := Out.of_append_none hinfo
        rw [hit, (normalizeText_spec hi).2, Out.text_ok]
      · rfl
    rw [hinfo']
    simp only [List.append_assoc]

/-- The path after an authority is empty or begins with a slash. -/
theorem path_rooted_of_authority {m : Bytes} (h : (parts u).ssAuthority = some m) :
    (parts u).text .path = [] ∨ ((parts u).text .path).head? = some ('/' : Byte) := by
  obtain ⟨a, -, -, hend⟩ := of_matchSsAuthority (show (matchSsAuthority _).1 = some m from h)
  have hpath : (parts u).text .path =
      (matchPath (matchSsAuthority (matchSchemeColon u).2).2).1.getD [] := Parts.text_path
  rw [hpath]
  generalize (matchSsAuthority (matchSchemeColon u).2).2 = v at *
  have happ := @matchPath_append v
  cases hp : (matchPath v).1.getD [] with
  | nil => exact .inl rfl
  | cons d w =>
    have hd : d ∈ lit "/?#" := hend d (by rw [← happ, hp]; rfl)
    have hd' : d ∉ lit "?#" := not_mem_matchPath (hp ▸ List.mem_cons_self)
    refine .inr (congrArg some ?_)
    exact (List.mem_cons.1 hd).resolve_right hd'

theorem removeDotSegments_spec (h : s = [] ∨ s.head? = some ('/' : Byte)) :
    (removeDotSegments s = [] ↔ s = []) ∧
      (removeDotSegments s = [] ∨ (removeDotSegments s).head? = some ('/' : Byte)) ∧
      ((removeDotSegments s).getLast? = some ('/' : Byte) ∨
        (removeDotSegments s).getLast? = s.getLast?) ∧
      ∀ x ∈ removeDotSegments s, x ∈ s := by
  obtain rfl | h := h
  · simp [removeDotSegments, Rfc3986.removeLoop_nil]
  · obtain ⟨hhead, hlast, hmem⟩ := Rfc3986.removeLoop_rooted h (.inl rfl)
    refine ⟨iff_of_false (fun e => ?_) fun e => ?_, .inr hhead, hlast, fun x hx => ?_⟩
    · unfold removeDotSegments at e
      simp [e] at hhead
    · simp [e] at h
    · simpa using hmem x hx

/-- No byte is left at the end that trimming would take off. -/
theorem isSpace_getLast_flat {m : Bytes} (ha : (parts (trim u)).ssAuthority = some m) :
    ∀ c, ((parts (trim u)).schemeColon.getD [] ++
      ((if (parts (trim u)).text .userinfo ≠ [] then
        (parts (trim u)).text .userinfo ++ [('@' : Byte)] else []) ++
        (parts (trim u)).text .hostPort) ++
      (removeDotSegments ((parts (trim u)).text .path) ++
        (parts (trim u)).queryFrag)).getLast? = some c → isSpace c = false := by
  intro c hc
  have hw := @parts_append (trim u)
  rw [Parts.uri, ha, Option.getD_some, ssAuthority_parts ha, ← Parts.authority_append ha,
    ← Parts.text_path] at hw
  have hlast : ∀ c, (trim u).getLast? = some c → isSpace c = false := fun c =>
    isSpace_getLast_trim
  rw [← hw] at hlast
  obtain ⟨hnil, -, hend, -⟩ := removeDotSegments_spec (path_rooted_of_authority ha)
  rw [List.getLast?_append, List.getLast?_append] at hc
  cases hq : (parts (trim u)).queryFrag.getLast? with
  | some d =>
    rw [hq, Option.some_or, Option.some_or] at hc
    refine hlast c ?_
    rw [List.getLast?_append, hq, Option.some_or, hc]
  | none =>
    rw [hq, Option.none_or] at hc
    rw [List.getLast?_eq_none_iff.1 hq, List.append_nil] at hlast
    by_cases hp : (parts (trim u)).text .path = []
    · rw [hnil.2 hp, List.getLast?_nil, Option.none_or, List.getLast?_append,
        List.getLast?_append] at hc
      rw [hp, List.append_nil] at hlast
      cases hh : ((parts (trim u)).text .hostPort).getLast? with
      | some d =>
        rw [hh, Option.some_or, Option.some_or] at hc
        refine hlast c ?_
        rw [List.getLast?_append, List.getLast?_append, List.getLast?_append, hh,
          Option.some_or, Option.some_or, Option.some_or, hc]
      | none =>
        rw [hh, Option.none_or] at hc
        split_ifs at hc with hne
        · rw [List.getLast?_concat, Option.some_or] at hc
          rw [← Option.some.inj hc]
          decide
        · -- only the scheme is left
          rw [List.getLast?_nil, Option.none_or] at hc
          cases hs : (parts (trim u)).schemeColon with
          | none => simp [hs] at hc
          | some m =>
            rw [hs, Option.getD_some, schemeColon_parts hs, List.getLast?_concat] at hc
            rw [← Option.some.inj hc]
            decide
    · have hne : removeDotSegments ((parts (trim u)).text .path) ≠ [] := fun e => hp (hnil.1 e)
      rw [List.getLast?_eq_some_getLast hne, Option.some_or, ← List.getLast?_eq_some_getLast hne]
        at hc
      obtain hend | hend := hend
      · rw [hend] at hc
        rw [← Option.some.inj hc]
        decide
      · refine hlast c ?_
        rw [List.getLast?_append, ← hend, hc, Option.some_or]

end Jkl.Uri
