import Jkl.Uri.NormalizeSpec
import Jkl.Uri.Resolve

/-! Normalising writes no `"//"`: what reading its result gives back. -/
namespace Jkl.Uri

open Cut (find rfind rfind_eq_some)
open Rfc3986 (removeDotSegments parse)

variable {asserts : Bool} {u m : Bytes}

/-! The parts of a text with an authority, as they are normalised. -/

theorem schemeColon_normal (h : (parts (trim u)).schemeColon.elim True fun m => m.length ≠ 1) :
    let s := ((parts (trim u)).schemeColon.getD []).map toLower
    (s = [] ∨ ∃ a, s = a ++ [(':' : Byte)] ∧ a ≠ [] ∧ ∀ x ∈ a, x ∉ lit ":/?#") ∧
      ∀ c, s.head? = some c → isSpace c = false := by
  have hdelim : ∀ d ∈ lit ":/?#", isAlpha d = false := by decide +kernel
  refine ⟨?_, Recased.lower.isSpace_head fun c hc => @isSpace_head_trim u c ?_⟩
  · cases hs : (parts (trim u)).schemeColon with
    | none => exact .inl rfl
    | some m =>
      obtain ⟨a, rfl, ha⟩ := of_matchSchemeColon (show (matchSchemeColon _).1 = some m from hs)
      have hne : a ≠ [] := by
        rw [hs] at h
        simpa using h
      refine .inr ⟨a.map toLower, ?_, by simpa using hne, Recased.lower.avoids hdelim ha⟩
      rw [Option.getD_some, List.map_append]
      rfl
  · rw [← @parts_append (trim u), Parts.uri, List.append_assoc, List.append_assoc,
      List.head?_append, hc]
    rfl

theorem mem_authority {x : Byte} (ha : (parts u).ssAuthority = some m)
    (hx : x ∈ (parts u).text .userinfo ∨ x ∈ (parts u).text .hostPort) : x ∉ lit "/?#" := by
  obtain ⟨a, rfl, hav, -⟩ := of_matchSsAuthority (show (matchSsAuthority _).1 = some m from ha)
  have happ := Parts.authority_append ha
  refine hav x ?_
  rw [show (lit "//" ++ a).drop 2 = a from rfl] at happ
  rw [← happ]
  refine List.mem_append.2 (hx.imp (fun hx => ?_) id)
  rw [Parts.text_userinfo] at hx
  rw [Parts.text_userinfoAt]
  cases hi : (parts u).userinfo with
  | none => simp [hi] at hx
  | some i =>
    rw [hi] at hx
    exact List.mem_append_left _ hx

/-- The authority that is left: the userinfo with its `'@'`, and the host with its port. -/
def normalAuthority (p : Parts) : Bytes :=
  (if p.text .userinfo ≠ [] then upperPct (p.text .userinfo) ++ [('@' : Byte)] else []) ++
    upperPct ((p.text .hostPort).map toLower)

theorem normalAuthority_avoids (ha : (parts u).ssAuthority = some m) :
    ∀ x ∈ normalAuthority (parts u), x ∉ lit "/?#" := by
  have hdelim : ∀ d ∈ lit "/?#", isAlpha d = false := by decide +kernel
  have hat : ('@' : Byte) ∉ lit "/?#" := by decide +kernel
  have hinfo := recased_upperPct.avoids hdelim fun x hx => mem_authority ha (.inl hx)
  have hhost := (Recased.lower.trans recased_upperPct).avoids hdelim fun x hx =>
    mem_authority ha (.inr hx)
  intro x hx
  obtain hx | hx := List.mem_append.1 hx
  · split_ifs at hx with hne
    · obtain hx | hx := List.mem_append.1 hx
      · exact hinfo x hx
      · rwa [List.mem_singleton.1 hx]
    · cases hx
  · exact hhost x hx

theorem normalAuthority_eq_nil {p : Parts} :
    normalAuthority p = [] ↔ p.text .userinfo = [] ∧ p.text .hostPort = [] := by
  have hhost : upperPct ((p.text .hostPort).map toLower) = [] ↔ p.text .hostPort = [] :=
    (Recased.lower.trans recased_upperPct).eq_nil_iff
  unfold normalAuthority
  rw [List.append_eq_nil_iff, hhost]
  split_ifs with h
  · simp [h]
  · simp [not_not.1 h]

theorem path_normal (ha : (parts u).ssAuthority = some m) :
    let s := upperPct (removeDotSegments ((parts u).text .path))
    (s = [] ∨ s.head? = some ('/' : Byte)) ∧ ∀ x ∈ s, x ∉ lit "?#" := by
  obtain ⟨-, hhead, -, hmem⟩ := removeDotSegments_spec (path_rooted_of_authority ha)
  have hdelim : ∀ d ∈ lit "?#", isAlpha d = false := by decide +kernel
  refine ⟨hhead.imp (recased_upperPct.eq_nil_iff.2) ?_, recased_upperPct.avoids hdelim ?_⟩
  · exact (recased_upperPct.head?_iff (by decide)).2
  · intro x hx
    have hx := hmem x hx
    rw [Parts.text_path] at hx
    exact not_mem_matchPath hx

theorem query_normal :
    let s := upperPct ((parts u).qmQuery.getD [])
    s = [] ∨ ∃ q, s = ('?' : Byte) :: q ∧ ∀ x ∈ q, x ≠ '#' := by
  cases hq : (parts u).qmQuery with
  | none => exact .inl rfl
  | some m =>
    obtain ⟨q, rfl, hav⟩ := of_matchQmQuery (show (matchQmQuery _).1 = some m from hq)
    refine .inr ⟨upperPct q, upperPct_cons (by decide), fun x hx e => ?_⟩
    have hx : ('#' : Byte) ∈ upperPct q := e ▸ hx
    exact hav _ ((recased_upperPct.mem_iff (by decide)).1 hx) rfl

theorem frag_normal : ∀ c, (upperPct ((parts u).sharpFrag.getD [])).head? = some c → c = '#' := by
  intro c hc
  cases hf : (parts u).sharpFrag.getD [] with
  | nil => simp [hf, upperPct] at hc
  | cons d w =>
    have hd : d = '#' := head_matchSharpFrag (show ((matchSharpFrag _).1.getD []).head? = _ by
      rw [show (matchSharpFrag _).1.getD [] = d :: w from hf]
      rfl)
    rw [hf, hd, upperPct_cons (by decide)] at hc
    exact (Option.some.inj hc).symm

/-- No escape of a query reaches into the fragment. -/
theorem upperPct_queryFrag (h : (upperDigits (parts u).queryFrag).isSome = true) :
    upperPct (parts u).queryFrag =
      upperPct ((parts u).qmQuery.getD []) ++ upperPct ((parts u).sharpFrag.getD []) := by
  unfold Parts.queryFrag at h ⊢
  cases hf : (parts u).sharpFrag.getD [] with
  | nil => rw [List.append_nil, upperPct, List.append_nil]
  | cons d w =>
    have hd : d = '#' := head_matchSharpFrag (show ((matchSharpFrag _).1.getD []).head? = _ by
      rw [show (matchSharpFrag _).1.getD [] = d :: w from hf]
      rfl)
    rw [hf, hd] at h
    rw [hd]
    exact upperPct_append (by decide) h

/-- What is written for a URI with an authority. -/
theorem exists_flat (ha : (parts (trim u)).ssAuthority = some m)
    (h : (normalizeUri asserts .urlEncoded .urlEncoded u).stop = none) :
    ∃ f : Flat, (normalizeUri asserts .urlEncoded .urlEncoded u).text = f.text ∧
      f.schemeColon = ((parts (trim u)).schemeColon.getD []).map toLower ∧
      f.authority = normalAuthority (parts (trim u)) ∧
      f.path = upperPct (removeDotSegments ((parts (trim u)).text .path)) ∧
      f.query = upperPct ((parts (trim u)).qmQuery.getD []) ∧
      f.frag = upperPct ((parts (trim u)).sharpFrag.getD []) ∧
      ∀ c, f.text.getLast? = some c → isSpace c = false := by
  obtain ⟨hfail, hdigits, htext⟩ := normalizeUri_text (path_rooted_of_authority ha) h
  obtain ⟨c, hc⟩ : ∃ c, read asserts .urlEncoded u (freshComps .urlEncoded []) = .ok c :=
    exists_read_fresh [] hfail
  obtain ⟨hscheme, hspace⟩ := schemeColon_normal (schemeColon_of_read hc)
  obtain ⟨hrooted, hpath⟩ := path_normal ha
  refine ⟨⟨_, _, _, _, _, hscheme, hspace, normalAuthority_avoids ha, hrooted, hpath, query_normal,
    frag_normal⟩, ?_, rfl, rfl, rfl, rfl, rfl, ?_⟩
  · rw [htext, upperPct_queryFrag hdigits]
    rfl
  · have hinfo : Recased
        (if (parts (trim u)).text .userinfo ≠ [] then
          (parts (trim u)).text .userinfo ++ [('@' : Byte)] else [])
        (if (parts (trim u)).text .userinfo ≠ [] then
          upperPct ((parts (trim u)).text .userinfo) ++ [('@' : Byte)] else []) := by
      split_ifs
      · exact recased_upperPct.append (Recased.refl _)
      · exact Recased.refl _
    refine Recased.isSpace_getLast ?_ (isSpace_getLast_flat ha)
    change Recased _ (_ ++ normalAuthority (parts (trim u)) ++ (_ ++ (_ ++ _)))
    rw [← upperPct_queryFrag hdigits]
    refine (Recased.lower.append (hinfo.append ?_)).append ?_
    · exact Recased.lower.trans recased_upperPct
    · exact recased_upperPct.append recased_upperPct

/-! Reading it back. -/

/-- The second texts are the first in their normal form: the scheme and the host in lower case,
percent-encoding digits in upper case, and no dot segments in the path. -/
structure NormalForms (s n : Tag → Bytes) : Prop where
  scheme : n .scheme = (s .scheme).map toLower
  userinfo : n .userinfo = upperPct (s .userinfo)
  host : n .host = upperPct ((s .host).map toLower)
  port : n .port = upperPct (s .port)
  path : n .path = upperPct (removeDotSegments (s .path))
  query : n .query = upperPct (s .query)
  frag : n .frag = upperPct (s .frag)

/-- The components of a URI. -/
def uriTags : List Tag := [.scheme, .userinfo, .host, .port, .path, .query, .frag]

/-- Reading the text gives the components of the URI in their normal form. -/
def ReadsBack (asserts : Bool) (u n : Bytes) : Prop :=
  ∃ c c', read asserts .urlEncoded u (freshComps .urlEncoded uriTags) = .ok c ∧
    read asserts .urlEncoded n (freshComps .urlEncoded uriTags) = .ok c' ∧
    NormalForms c.text c'.text

theorem readsBack_iff {n : Bytes} (h : ∀ e, .fail e ∉ acts (trim u)) :
    ReadsBack asserts u n ↔ (∀ e, .fail e ∉ acts (trim n)) ∧
      NormalForms (parts (trim u)).text (parts (trim n)).text := by
  have hforms : ∀ {s s' n n' : Tag → Bytes}, (∀ t ∈ uriTags, s t = s' t) →
      (∀ t ∈ uriTags, n t = n' t) → NormalForms s n → NormalForms s' n' := by
    rintro s s' n n' hs hn ⟨h₁, h₂, h₃, h₄, h₅, h₆, h₇⟩
    simp only [uriTags, List.forall_mem_cons, List.not_mem_nil, false_implies, implies_true,
      and_true] at hs hn
    simp only [hs, hn] at h₁ h₂ h₃ h₄ h₅ h₆ h₇
    exact ⟨h₁, h₂, h₃, h₄, h₅, h₆, h₇⟩
  constructor
  · rintro ⟨c, c', hc, hc', hn⟩
    exact ⟨fail_not_mem hc', hforms (fun t => text_of_fresh hc) (fun t => text_of_fresh hc') hn⟩
  · rintro ⟨h', hn⟩
    obtain ⟨c, hc⟩ : ∃ c, read asserts .urlEncoded u (freshComps .urlEncoded uriTags) = .ok c :=
      exists_read_fresh uriTags h
    obtain ⟨c', hc'⟩ : ∃ c, read asserts .urlEncoded n (freshComps .urlEncoded uriTags) = .ok c :=
      exists_read_fresh uriTags h'
    refine ⟨c, c', hc, hc', hforms (fun t ht => ?_) (fun t ht => ?_) hn⟩
    · exact (text_of_fresh hc ht).symm
    · exact (text_of_fresh hc' ht).symm

/-- The host is cut off unless the reader failed. -/
theorem hostCut_ne_none {p : Parts} (h : ∀ e, .fail e ∉ p.acts) : hostCut p.hostPort ≠ none := by
  intro hc
  have hne : p.hostPort ≠ [] := fun e => by simp [e, hostCut] at hc
  have hfail : .fail .unterminatedIpv6 ∈ hostPortActs p.uri p.hostPort := by
    simp [hostPortActs_eq, hne, hc]
  refine h .unterminatedIpv6 ?_
  cases ha : p.ssAuthority with
  | none => exact absurd (by simp [Parts.hostPort, ha]) hne
  | some m =>
    simp only [Parts.hostPort, ha, Option.elim] at hfail
    cases hf : find ('@' : Byte) (m.drop 2) <;> simp_all [Parts.acts, authorityActs]

/-- A host and a port that are both empty leave at most a colon. -/
theorem hostPort_of_empty {p : Parts} (h : ∀ e, .fail e ∉ p.acts) (hhost : p.text .host = [])
    (hport : p.text .port = []) : p.hostPort = [] ∨ p.hostPort = lit ":" := by
  obtain ⟨⟨x, y⟩, hcut⟩ := Option.ne_none_iff_exists'.1 (hostCut_ne_none h)
  rw [Parts.text_host, hcut] at hhost
  rw [Parts.text_port, hcut] at hport
  unfold hostCut at hcut
  split_ifs at hcut with hb
  · obtain ⟨q, -, hq⟩ := Option.map_eq_some_iff.1 hcut
    have hx : q.1 ++ [(']' : Byte)] = [] := (congrArg Prod.fst hq).trans hhost
    simp at hx
  · cases hr : rfind (':' : Byte) p.hostPort with
    | none =>
      rw [hr] at hcut
      refine .inl (Eq.trans ?_ hhost)
      exact congrArg Prod.fst (Option.some.inj hcut)
    | some q =>
      rw [hr] at hcut
      obtain ⟨hx, hy⟩ := Prod.ext_iff.1 (Option.some.inj hcut)
      have hsplit := (rfind_eq_some.1 (show rfind _ _ = some (q.1, q.2) from hr)).1
      have hx : q.1 = [] := hx.trans hhost
      have hy : (':' : Byte) :: q.2 = y := hy
      have hy' : portOf y = [] := hport
      rw [← hy] at hy'
      have hy' : q.2 = [] := hy'
      rw [hsplit, hx, hy']
      exact .inr rfl

/-- The only authorities of which nothing is written. -/
theorem authority_of_empty {p : Parts} {a : Bytes} (ha : p.ssAuthority = some (lit "//" ++ a)) :
    p.text .userinfo = [] ∧ p.text .hostPort = [] ↔ a = [] ∨ a = lit "@" := by
  have happ := Parts.authority_append ha
  rw [show (lit "//" ++ a).drop 2 = a from rfl] at happ
  constructor
  · intro ⟨hi, hh⟩
    rw [hh, List.append_nil, Parts.text_userinfoAt] at happ
    rw [Parts.text_userinfo] at hi
    cases h : p.userinfo with
    | none =>
      rw [h] at happ
      exact .inl happ.symm
    | some i =>
      rw [h] at happ hi
      rw [show i = [] from hi] at happ
      exact .inr happ.symm
  · intro h
    rw [Parts.text_userinfo, Parts.text_hostPort, Parts.userinfo, Parts.hostPort, ha]
    obtain rfl | rfl := h
    · exact ⟨by decide, by decide⟩
    · exact ⟨by decide, by decide⟩

/-! When the parts come back. -/

variable {f : Flat} {p : Parts}

/-- If the components come back then nothing of the authority was written, and no path was that
another authority would be cut from. -/
theorem Flat.of_normalForms (hfail : ∀ e, .fail e ∉ p.acts)
    (hscheme : f.schemeColon = (p.schemeColon.getD []).map toLower)
    (hauth : f.authority = normalAuthority p)
    (hpath : f.path = upperPct (removeDotSegments (p.text .path)))
    (hp : p.schemeColon.elim True fun m => m.length ≠ 1)
    (hl : ∀ c, f.text.getLast? = some c → isSpace c = false)
    (hread : (parts (trim f.text)).schemeColon.elim True fun m => m.length ≠ 1)
    (h : NormalForms p.text (parts (trim f.text)).text) :
    f.authority = [] ∧ ¬lit "//" <+: f.path := by
  have hpath' : (parts (trim f.text)).text .path = f.path := by rw [h.path, hpath]
  have hscheme' : (parts (trim f.text)).text .scheme = f.schemeColon.dropLast := by
    rw [h.scheme, Parts.text_scheme hp, hscheme, List.map_dropLast]
  have hnil : f.authority = [] := by
    by_contra hne
    obtain ⟨hnone, hcolon⟩ := no_authority hne hl hread hscheme' hpath'
    have hempty : (parts (trim f.text)).text .userinfo = [] ∧
        (parts (trim f.text)).text .host = [] ∧ (parts (trim f.text)).text .port = [] := by
      rw [Parts.text_userinfo, Parts.text_host, Parts.text_port, Parts.userinfo, Parts.hostPort,
        hnone]
      exact ⟨rfl, rfl, rfl⟩
    obtain ⟨hi, hh, ho⟩ := hempty
    rw [h.userinfo] at hi
    rw [h.host] at hh
    rw [h.port] at ho
    have hi : p.text .userinfo = [] := recased_upperPct.eq_nil_iff.1 hi
    have hh : p.text .host = [] := (Recased.lower.trans recased_upperPct).eq_nil_iff.1 hh
    have ho : p.text .port = [] := recased_upperPct.eq_nil_iff.1 ho
    obtain hhp | hhp := hostPort_of_empty hfail hh ho
    · exact hne (hauth.trans (normalAuthority_eq_nil.2 ⟨hi, by rw [Parts.text_hostPort, hhp]⟩))
    · refine hcolon ?_
      rw [hauth, normalAuthority, hi, Parts.text_hostPort, hhp]
      rfl
  refine ⟨hnil, fun hslash => ?_⟩
  have htext : (parts f.text).text .path =
      ((matchPath (matchSsAuthority f.rest).2).1.getD []) := by
    have hm : (matchSchemeColon f.text).2 = f.rest := by
      rw [text, hnil, List.append_nil]
      by_cases hs : f.schemeColon = []
      · rw [hs, List.nil_append, matchSchemeColon_none fun c => head_rest]
      · rw [matchSchemeColon_text hs]
    rw [Parts.text_path, ← hm]
    rfl
  rw [trim_text (.inr hnil) hl, htext] at hpath'
  have hshort := path_shorter (prefix_rest.2 hslash)
  rw [hpath'] at hshort
  exact lt_irrefl _ hshort

/-- Otherwise what is left is read part by part. -/
theorem Flat.normalForms (hp : p.schemeColon.elim True fun m => m.length ≠ 1)
    (hscheme : f.schemeColon = (p.schemeColon.getD []).map toLower)
    (hpath : f.path = upperPct (removeDotSegments (p.text .path)))
    (hquery : f.query = upperPct (p.qmQuery.getD []))
    (hfrag : f.frag = upperPct (p.sharpFrag.getD []))
    (hq : p.qmQuery.elim True fun m => m.head? = some ('?' : Byte))
    (hf : ∀ c, (p.sharpFrag.getD []).head? = some c → c = '#')
    (ha : f.authority = []) (hslash : ¬lit "//" <+: f.path)
    (hempty : p.text .userinfo = [] ∧ p.hostPort = []) :
    (∀ e, .fail e ∉ (parts f.text).acts) ∧ NormalForms p.text (parts f.text).text := by
  obtain ⟨hs, hss, hpt, hqt, hft⟩ := parts_text ha hslash
  have hcolon : (parts f.text).schemeColon.elim True fun m => m.length ≠ 1 := by
    rw [hs]
    split_ifs with hne
    · trivial
    · cases hps : p.schemeColon with
      | none => exact absurd (by rw [hscheme, hps]; rfl) hne
      | some m =>
        rw [hps] at hp
        simpa [hscheme, hps] using hp
  have hhost : (parts f.text).hostPort = [] := by rw [Parts.hostPort, hss]; rfl
  have hinfo : (parts f.text).text .userinfo = [] := by
    rw [Parts.text_userinfo, Parts.userinfo, hss]
    rfl
  refine ⟨fun e => fail_not_mem_acts hcolon (by rw [hhost]; decide), ⟨?_, ?_, ?_, ?_, ?_, ?_, ?_⟩⟩
  · rw [Parts.text_scheme hcolon, Parts.text_scheme hp, hs, List.map_dropLast, ← hscheme]
    split_ifs with hne
    · rw [hne]
      rfl
    · rfl
  · rw [hinfo, hempty.1]
    rfl
  · rw [Parts.text_host, Parts.text_host, hhost, hempty.2]
    rfl
  · rw [Parts.text_port, Parts.text_port, hhost, hempty.2]
    rfl
  · rw [Parts.text_path, hpt, hpath]
  · rw [Parts.text_query, Parts.text_query, hqt, hquery]
    cases hm : p.qmQuery with
    | none => rfl
    | some m =>
      rw [hm] at hq
      cases m with
      | nil => rfl
      | cons c m =>
        have hc : c = '?' := Option.some.inj hq
        rw [Option.getD_some, hc, upperPct_cons (by decide)]
        rfl
  · rw [Parts.text_frag, Parts.text_frag, hft, hfrag]
    cases hm : p.sharpFrag.getD [] with
    | nil => rfl
    | cons c m =>
      rw [hf c (by rw [hm]; rfl), upperPct_cons (by decide)]
      rfl

theorem exists_read_of_normalize
    (h : (normalizeUri asserts .urlEncoded .urlEncoded u).stop = none) :
    ∃ c, read asserts .urlEncoded u (freshComps .urlEncoded normalizeTags) = .ok c := by
  unfold normalizeUri at h
  cases hr : read asserts .urlEncoded u (freshComps .urlEncoded normalizeTags) with
  | error e => simp [hr] at h
  | ok c => exact ⟨c, rfl⟩

/-- An accepted URI with an authority is kept if nothing of the authority would be written: the
normal form has no `"//"`, so the first byte of a host is a part of the path. -/
theorem normalize_keeps_iff (asserts : Bool) (u a : Bytes)
    (ha : (parse (trim u)).authority = some a)
    (h : (normalizeUri asserts .urlEncoded .urlEncoded u).stop = none) :
    ReadsBack asserts u (normalizeUri asserts .urlEncoded .urlEncoded u).text ↔
      (a = [] ∨ a = lit "@") ∧ ¬lit "//" <+: removeDotSegments (parse (trim u)).path := by
  obtain ⟨c, hc⟩ := exists_read_of_normalize h
  have hp := schemeColon_of_read hc
  have hfail := fail_not_mem hc
  obtain ⟨-, hss, hpath, -⟩ := parts_eq_parse hp
  have hss : (parts (trim u)).ssAuthority = some (lit "//" ++ a) := by rw [hss, ha]; rfl
  obtain ⟨f, htext, hscheme, hauth, hfpath, hfquery, hffrag, hl⟩ := exists_flat hss h
  rw [readsBack_iff hfail, htext, ← authority_of_empty hss, ← normalAuthority_eq_nil, ← hauth,
    ← hpath, ← Parts.text_path]
  have hslash : lit "//" <+: removeDotSegments ((parts (trim u)).text .path) ↔
      lit "//" <+: f.path := by
    rw [hfpath]
    exact (recased_upperPct.prefix_iff (by decide +kernel)).symm
  rw [hslash]
  rw [acts_eq_parts] at hfail
  constructor
  · intro ⟨hread, hn⟩
    obtain ⟨c', hc'⟩ : ∃ c, read asserts .urlEncoded f.text (freshComps .urlEncoded []) = .ok c :=
      exists_read_fresh [] hread
    exact f.of_normalForms hfail hscheme hauth hfpath hp hl (schemeColon_of_read hc') hn
  · intro ⟨hnil, hno⟩
    rw [Flat.trim_text (.inr hnil) hl, acts_eq_parts]
    refine f.normalForms hp hscheme hfpath hfquery hffrag ?_ ?_ hnil hno ?_
    · cases hq : (parts (trim u)).qmQuery with
      | none => trivial
      | some m =>
        obtain ⟨q, rfl, -⟩ := of_matchQmQuery (show (matchQmQuery _).1 = some m from hq)
        rfl
    · exact fun c => head_matchSharpFrag
    · rw [hauth, normalAuthority_eq_nil, Parts.text_hostPort] at hnil
      exact hnil

theorem normalize_keeps_file :
    ReadsBack true (lit "FILE:///a/../b%7e?q") (lit "file:/b%7E?q") := by
  have htext : (normalizeUri true .urlEncoded .urlEncoded (lit "FILE:///a/../b%7e?q")).text =
      lit "file:/b%7E?q" := by decide +kernel
  have hpath : removeDotSegments (parse (trim (lit "FILE:///a/../b%7e?q"))).path = lit "/b%7e" := by
    have h := (@removeDotSegmentsAppend_yields true .urlEncoded (lit "/a/../b%7e")
      (.inr rfl)).2
    exact h.symm.trans (by decide +kernel)
  rw [← htext]
  refine (normalize_keeps_iff true _ [] (by decide +kernel) (by decide +kernel)).2 ⟨.inl rfl, ?_⟩
  rw [hpath]
  decide +kernel

/-- A host that is written without its `"//"` is read as a part of the path. -/
theorem not_normalize_keeps :
    ¬∀ (asserts : Bool) (u a : Bytes), (parse (trim u)).authority = some a →
      (normalizeUri asserts .urlEncoded .urlEncoded u).stop = none →
      ReadsBack asserts u (normalizeUri asserts .urlEncoded .urlEncoded u).text := by
  intro h
  obtain ⟨c, c', hc, hc', hn⟩ := h true (lit "http://h/p") (lit "h") (by decide +kernel)
    (by decide +kernel)
  have hhost : c'.text .host = upperPct ((c.text .host).map toLower) := hn.host
  rw [text_of_fresh hc (by decide), text_of_fresh hc' (by decide)] at hhost
  revert hhost
  decide +kernel

end Jkl.Uri
