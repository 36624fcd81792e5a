import Jkl.Uri.DotSegmentsSpec

/-! Resolving a reference against a base, and that it does what RFC 3986 says. -/
namespace Jkl.Uri

open Cut (rfind findFirstOf)
open Rfc3986 (parse target targetPath recompose)

/-- `uri_resolve_path_append`; the first byte of an empty reference is looked at unseen. -/
def resolvePathAppend (asserts : Bool) (dest cb : Codec) (base : Bytes) (cr : Codec) (ref : Bytes)
    (treatEmptyBaseAsRoot : Bool) : Out :=
  if ref = [] then .halt (if asserts then .assertion else .wild)
  else
    let dir : Out :=
      if ref.head? ≠ some ('/' : Byte) then
        match rfind ('/' : Byte) base with
        | some (d, _) => codecCvtAppend asserts .path dest cb d ++ .ok ['/']
        | none => if treatEmptyBaseAsRoot ∧ base = [] then .ok ['/'] else .ok []
      else .ok []
    removeDotSegmentsInplace (dir ++ codecCvtAppend asserts .path dest cr ref)

/-- The components that `uri_resolve_append` reads a reference and a base into. -/
def refTags : List Tag := [.scheme, .ssAuthority, .schemeAuthority, .path, .qmQuery, .sharpFrag]

def baseTags : List Tag := [.schemeColon, .ssAuthority, .path, .qmQuery]

/-- `uri_resolve_append<DestCodec>`, with `p_skip_frag` or without. -/
def resolveAppend (asserts skipFrag : Bool) (dest cb : Codec) (base : Bytes) (cr : Codec)
    (ref : Bytes) : Out :=
  match read asserts cr ref (freshComps cr refTags) with
  | .error e => .halt e
  | .ok r =>
    let put (t : Tag) : Out := codecCvtAppend asserts t dest cr (r.text t)
    let frag : Out := if skipFrag then .ok [] else put .sharpFrag
    if r.text .scheme ≠ [] then
      put .schemeAuthority ++ removeDotSegmentsAppend asserts .path dest cr (r.text .path) ++
        put .qmQuery ++ frag
    else
      match read asserts cb base (freshComps cb baseTags) with
      | .error e => .halt e
      | .ok b =>
        if asserts ∧ b.text .schemeColon = [] then .halt .assertion
        else
          let putBase (t : Tag) : Out := codecCvtAppend asserts t dest cb (b.text t)
          putBase .schemeColon ++
            (if r.text .ssAuthority ≠ [] then
              put .ssAuthority ++
                removeDotSegmentsAppend asserts .path dest cr (r.text .path) ++ put .qmQuery
            else
              putBase .ssAuthority ++
                if r.text .path = [] then
                  putBase .path ++
                    if r.text .qmQuery ≠ [] then put .qmQuery else putBase .qmQuery
                else
                  resolvePathAppend asserts dest cb (b.text .path) cr (r.text .path)
                      (b.text .ssAuthority ≠ []) ++
                    put .qmQuery) ++
            frag

/-! The reader's parts are those of appendix B, with their delimiters. -/

variable {asserts skipFrag : Bool} {u v base ref : Bytes}

theorem matchSchemeColon_eq_split (h : (matchSchemeColon v).1.elim True fun m => m.length ≠ 1) :
    matchSchemeColon v =
      ((Rfc3986.splitScheme v).1.map (· ++ [(':' : Byte)]), (Rfc3986.splitScheme v).2) := by
  unfold matchSchemeColon Rfc3986.splitScheme at *
  generalize findFirstOf (fun c => c ∈ lit ":/?#") v = p at *
  obtain ⟨a, b⟩ := p
  cases a with
  | nil =>
    cases b with
    | nil => rfl
    | cons d b =>
      by_cases hd : d = ':'
      · simp [hd] at h
      · simp [hd]
  | cons c a =>
    cases b with
    | nil => rfl
    | cons d b =>
      by_cases hd : d = ':'
      · simp [hd]
      · simp [hd]

theorem matchSsAuthority_eq_split : matchSsAuthority v =
    ((Rfc3986.splitAuthority v).1.map (lit "//" ++ ·), (Rfc3986.splitAuthority v).2) := by
  unfold matchSsAuthority Rfc3986.splitAuthority
  split_ifs <;> rfl

theorem matchPath_eq_split :
    ((matchPath v).1.getD [], (matchPath v).2) = findFirstOf (fun c => c ∈ lit "?#") v := by
  unfold matchPath
  split_ifs with h
  · rw [h]
    rfl
  · rfl

theorem matchQmQuery_eq_split : matchQmQuery v =
    ((Rfc3986.splitAfter '?' (lit "#") v).1.map ([('?' : Byte)] ++ ·),
      (Rfc3986.splitAfter '?' (lit "#") v).2) := by
  have hends : (fun c : Byte => decide (c ∈ lit "#")) = fun c => decide (c = ('#' : Byte)) := by
    funext c
    simp [lit]
  cases v with
  | nil => rfl
  | cons c v =>
    unfold matchQmQuery Rfc3986.splitAfter
    rw [hends]
    dsimp only
    split_ifs with hc
    · simp [hc]
    · rfl

theorem matchSharpFrag_eq_split :
    (matchSharpFrag v).1 = (Rfc3986.splitAfter '#' [] v).1.map ([('#' : Byte)] ++ ·) := by
  cases v with
  | nil => rfl
  | cons c v =>
    have hall : ∀ ends : Bytes, ends = [] →
        findFirstOf (fun c : Byte => decide (c ∈ ends)) v = (v, []) := fun ends he =>
      Cut.findFirstOf_of_none (by simp [he])
    unfold matchSharpFrag Rfc3986.splitAfter
    dsimp only
    rw [hall _ rfl]
    by_cases hc : c = '#'
    · simp [hc]
    · simp [hc]

theorem parts_eq_parse (h : (parts u).schemeColon.elim True fun m => m.length ≠ 1) :
    (parts u).schemeColon = (parse u).scheme.map (· ++ [(':' : Byte)]) ∧
      (parts u).ssAuthority = (parse u).authority.map (lit "//" ++ ·) ∧
      (parts u).path.getD [] = (parse u).path ∧
      (parts u).qmQuery = (parse u).query.map ([('?' : Byte)] ++ ·) ∧
      (parts u).sharpFrag = (parse u).fragment.map ([('#' : Byte)] ++ ·) := by
  have hscheme := matchSchemeColon_eq_split h
  have hpath : ∀ v, (matchPath v).2 = (findFirstOf (fun c => c ∈ lit "?#") v).2 := fun v =>
    congrArg Prod.snd matchPath_eq_split
  have hpath' : ∀ v, (matchPath v).1.getD [] = (findFirstOf (fun c => c ∈ lit "?#") v).1 :=
    fun v => congrArg Prod.fst matchPath_eq_split
  simp only [parts, parse, hscheme, matchSsAuthority_eq_split, hpath, hpath',
    matchQmQuery_eq_split, matchSharpFrag_eq_split, and_self]

theorem splitScheme_ne_nil {s : Bytes} (h : (Rfc3986.splitScheme v).1 = some s) : s ≠ [] := by
  unfold Rfc3986.splitScheme at h
  split at h
  · split_ifs at h
    rw [← Option.some.inj h]
    exact List.cons_ne_nil _ _
  · cases h

/-- The texts of the parts, in terms of appendix B. -/
theorem texts_parts (h : (parts u).schemeColon.elim True fun m => m.length ≠ 1) :
    (parts u).text .schemeColon = (parse u).schemeText ∧
      ((parts u).text .scheme = [] ↔ (parse u).scheme = none) ∧
      (parts u).text .ssAuthority = (parse u).authorityText ∧
      (parts u).text .schemeAuthority = (parse u).schemeText ++ (parse u).authorityText ∧
      (parts u).text .path = (parse u).path ∧
      (parts u).text .qmQuery = (parse u).queryText ∧
      (parts u).text .sharpFrag = (parse u).fragmentText := by
  obtain ⟨hscheme, hauth, hpath, hquery, hfrag⟩ := parts_eq_parse h
  have hcolon : (parts u).schemeColon.getD [] = (parse u).schemeText := by
    rw [hscheme, Rfc3986.Reference.schemeText]
    cases (parse u).scheme <;> rfl
  have hss : (parts u).ssAuthority.getD [] = (parse u).authorityText := by
    rw [hauth, Rfc3986.Reference.authorityText]
    cases (parse u).authority <;> rfl
  refine ⟨?_, ?_, ?_, ?_, ?_, ?_, ?_⟩
  · rw [Parts.text_schemeColon h, hcolon]
  · rw [Parts.text_scheme h, hscheme]
    cases hs : (parse u).scheme with
    | none => simp
    | some s =>
      have hne : s ≠ [] := splitScheme_ne_nil hs
      simp [hne]
  · rw [Parts.text_ssAuthority, hss]
  · rw [Parts.text_schemeAuthority, Parts.uri, hcolon, hss]
  · rw [Parts.text_path, hpath]
  · rw [Parts.text_qmQuery, hquery, Rfc3986.Reference.queryText]
    cases (parse u).query <;> rfl
  · rw [Parts.text_sharpFrag, hfrag, Rfc3986.Reference.fragmentText]
    cases (parse u).fragment <;> rfl

/-! Paths. -/

variable {path : Bytes}

theorem resolvePathAppend_yields {b : Rfc3986.Reference} (hne : path ≠ [])
    (hp : (if path.head? = some ('/' : Byte) then path
      else Rfc3986.merge b path).head? = some ('/' : Byte)) :
    (resolvePathAppend asserts .asIs .asIs b.path .asIs path b.authority.isSome).Yields
      (Rfc3986.removeDotSegments (if path.head? = some ('/' : Byte) then path
        else Rfc3986.merge b path)) := by
  generalize ht : (if path.head? = some ('/' : Byte) then path else Rfc3986.merge b path) = t at *
  have hcopy : ∀ s, codecCvtAppend asserts .path .asIs .asIs s = .ok s := fun s =>
    codecCvtAppend_copy (.inl rfl)
  unfold resolvePathAppend
  rw [if_neg hne]
  dsimp only
  -- what goes before the reference makes it the merged path
  generalize hdir : (if path.head? ≠ some ('/' : Byte) then _ else Out.ok []) = dir
  have hmerged : (dir ++ codecCvtAppend asserts .path .asIs .asIs path).Yields t := by
    rw [hcopy, ← hdir, ← ht]
    by_cases hs : path.head? = some ('/' : Byte)
    · rw [if_neg (not_not.2 hs), if_pos hs, Out.ok_nil_append]
      exact Out.yields_ok
    · rw [if_pos hs, if_neg hs, Rfc3986.merge]
      cases hf : rfind ('/' : Byte) b.path with
      | none =>
        dsimp only
        split_ifs
        · exact Out.yields_ok.append Out.yields_ok
        · exact Out.yields_ok.append Out.yields_ok
      | some p =>
        have hne : b.path ≠ [] := fun e => by simp [e, rfind] at hf
        dsimp only
        rw [codecCvtAppend_copy (.inl rfl), if_neg fun h => hne h.2]
        exact (Out.yields_ok.append Out.yields_ok).append Out.yields_ok
  have hnil : (dir ++ codecCvtAppend asserts .path .asIs .asIs path).text ≠ [] := by
    rw [hmerged.2]
    intro e
    simp [e] at hp
  rw [removeDotSegmentsInplace, if_neg hnil, hmerged.2]
  exact removeDots_yields hmerged hp

theorem recompose_skip {t : Rfc3986.Reference} :
    recompose (if skipFrag then t.dropFragment else t) =
      t.schemeText ++ t.authorityText ++ t.path ++ t.queryText ++
        (if skipFrag then [] else t.fragmentText) := by
  cases skipFrag <;> rfl

/-- Reference resolution is that of RFC 3986 wherever the path of the target is empty or
rooted before its dot segments are removed. -/
theorem resolve_rfc (asserts skipFrag : Bool) (base ref : Bytes)
    (hbase : (read asserts .asIs base (freshComps .asIs baseTags)).isOk = true)
    (href : (read asserts .asIs ref (freshComps .asIs refTags)).isOk = true)
    (hscheme : (parse (trim base)).scheme.isSome = true)
    (hpath : (targetPath (parse (trim base)) (parse (trim ref))).1 = [] ∨
      (targetPath (parse (trim base)) (parse (trim ref))).1.head? = some ('/' : Byte)) :
    (resolveAppend asserts skipFrag .asIs .asIs base .asIs ref).Yields
      (recompose (if skipFrag then (target (parse (trim base)) (parse (trim ref))).dropFragment
        else target (parse (trim base)) (parse (trim ref)))) := by
  obtain ⟨b, hb⟩ := exists_eq_ok hbase
  obtain ⟨r, hr⟩ := exists_eq_ok href
  obtain ⟨hbscheme, -, hbauth, -, hbpath, hbquery, -⟩ := texts_parts (schemeColon_of_read hb)
  obtain ⟨-, hrscheme, hrauth, hrsa, hrpath, hrquery, hrfrag⟩ :=
    texts_parts (schemeColon_of_read hr)
  rw [← text_of_fresh hb (by decide)] at hbscheme hbauth hbpath hbquery
  rw [← text_of_fresh hr (by decide)] at hrscheme hrauth hrsa hrpath hrquery hrfrag
  generalize parse (trim base) = B at *
  generalize parse (trim ref) = R at *
  have hcopy : ∀ t s, codecCvtAppend asserts t .asIs .asIs s = .ok s := fun t s =>
    codecCvtAppend_copy (.inl rfl)
  simp only [resolveAppend, hr, hb, hcopy, hbscheme, hbauth, hbpath, hbquery, hrauth, hrsa,
    hrpath, hrquery, hrfrag]
  have hfrag : (if skipFrag then Out.ok [] else .ok R.fragmentText) =
      .ok (if skipFrag then [] else R.fragmentText) := by
    cases skipFrag <;> rfl
  rw [recompose_skip, hfrag]
  by_cases hs : R.scheme = none
  · have hb₀ : B.schemeText ≠ [] := fun e => by
      simp [Rfc3986.Reference.schemeText_eq_nil.1 e] at hscheme
    rw [if_neg (not_not.2 (hrscheme.2 hs)), if_neg fun h => hb₀ h.2]
    refine (?_ : Out.Yields _ _).append Out.yields_ok
    rw [Rfc3986.schemeText_target hs, List.append_assoc, List.append_assoc]
    refine Out.yields_ok.append ?_
    by_cases ha : R.authority = none
    · rw [if_neg (not_not.2 (Rfc3986.Reference.authorityText_eq_nil.2 ha))]
      rw [Rfc3986.authorityText_target hs ha]
      refine Out.yields_ok.append ?_
      by_cases hp : R.path = []
      · -- only a query replaces that of the base
        rw [if_pos hp, Rfc3986.path_target_nil hs ha hp, Rfc3986.queryText_target_nil hs ha hp]
        refine Out.yields_ok.append ?_
        split_ifs <;> exact Out.yields_ok
      · -- the path is absolute, or merged with that of the base
        have hflag : decide (B.authorityText ≠ []) = B.authority.isSome := by
          rw [Bool.eq_iff_iff, decide_eq_true_iff, Option.isSome_iff_ne_none]
          exact Rfc3986.Reference.authorityText_eq_nil.not
        rw [if_neg hp, Rfc3986.queryText_target hp, hflag]
        refine (?_ : Out.Yields _ _).append Out.yields_ok
        have hpath' := Rfc3986.targetPath_merge (b := B) hs ha hp
        simp only [target, hpath', if_true] at hpath ⊢
        refine resolvePathAppend_yields hp (hpath.resolve_left fun e => ?_)
        split_ifs at e
        · exact hp e
        · exact Rfc3986.merge_ne_nil hp e
    · -- the authority of the reference wins
      have hsome : R.authority.isSome = true := Option.isSome_iff_ne_none.2 ha
      simp only [targetPath, hsome, or_true, if_true] at hpath
      rw [if_pos fun e => ha (Rfc3986.Reference.authorityText_eq_nil.1 e),
        Rfc3986.tail_target ha]
      exact (Out.yields_ok.append (removeDotSegmentsAppend_yields hpath)).append Out.yields_ok
  · -- the scheme of the reference wins
    have hsome : R.scheme.isSome = true := Option.isSome_iff_ne_none.2 hs
    rw [if_pos fun e => hs (hrscheme.1 e)]
    simp only [targetPath, target, hsome, true_or, if_true] at hpath ⊢
    exact ((Out.yields_ok.append (removeDotSegmentsAppend_yields hpath)).append
      Out.yields_ok).append Out.yields_ok

theorem resolve_rfc_parent :
    recompose (target (parse (trim (lit "http://a/b/c/d;p?q"))) (parse (trim (lit "../g;x?y#s")))) =
      lit "http://a/b/g;x?y#s" := by
  have h := resolve_rfc true false (lit "http://a/b/c/d;p?q") (lit "../g;x?y#s")
    (by decide +kernel) (by decide +kernel) (by decide +kernel) (by decide +kernel)
  exact h.2.symm.trans (by decide +kernel)

end Jkl.Uri
