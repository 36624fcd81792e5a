import Jkl.Uri.CompSize
import Jkl.Uri.Resolve

/-! The resolver keeps to the room it asks for: that of the base, one byte, and that of the
reference. -/
namespace Jkl.Uri

open Cut (find rfind rfind_eq_some find_append)

variable {asserts skipFrag isRel : Bool} {t : Tag} {dest src codec cb cr : Codec}
  {s u base ref path : Bytes} {o p : Out} {m n : ℕ} {comps : Comps} {e : Stop}

/-- `max_write_size<DestCodec>()` of a `uri_uri_comp`. -/
def uriMaxWriteSize (dest codec : Codec) (u : Bytes) : ℕ :=
  if dest = .urlEncoded ∧ codec = .urlDecoded then u.length * 3 else u.length

theorem uriMaxWriteSize_eq : uriMaxWriteSize dest codec u = u.length * widen dest codec := by
  unfold uriMaxWriteSize widen
  split_ifs
  · rfl
  · exact (Nat.mul_one _).symm

theorem maxCodecCvtSize_le : maxCodecCvtSize t dest codec n ≤ n * widen dest codec := by
  unfold maxCodecCvtSize widen
  split_ifs
  · cases t <;> simp only [maxEncodeSize] <;> omega
  · omega

theorem maxCodecCvtSize_path : maxCodecCvtSize .path dest codec n = n * widen dest codec := by
  unfold maxCodecCvtSize widen
  split_ifs
  · rfl
  · exact (Nat.mul_one n).symm

/-! Calls that keep to a room. -/

/-- The call stores nothing behind the first `n` bytes. -/
structure Out.Fits (o : Out) (n : ℕ) : Prop where
  peak_le : o.peak ≤ n
  tame : o.Tame

namespace Out

theorem fits_ok : (ok s).Fits s.length := ⟨le_rfl, tame_ok⟩

theorem fits_halt (h : e ≠ .wild) : (halt e).Fits n := ⟨Nat.zero_le n, tame_halt.2 h⟩

theorem Fits.mono (h : o.Fits m) (hmn : m ≤ n) : o.Fits n := ⟨h.peak_le.trans hmn, h.tame⟩

theorem Fits.append (ho : o.Fits m) (hp : p.Fits n) : (o ++ p).Fits (m + n) :=
  ⟨peak_append_le.trans (Nat.add_le_add ho.peak_le hp.peak_le), ho.tame.append hp.tame⟩

end Out

theorem fits_codecCvtAppend (h : ¬ShortAuthority asserts t dest src s) :
    (codecCvtAppend asserts t dest src s).Fits (s.length * widen dest src) :=
  ⟨peak_codecCvtAppend_le.trans maxCodecCvtSize_le, tame_codecCvtAppend.2 h⟩

theorem Out.Fits.removeDots (h : o.Fits n) : (removeDots isRel o).Fits n := by
  unfold Uri.removeDots
  split
  · exact h
  · exact ⟨h.peak_le, by simp [Out.Tame]⟩

theorem fits_removeDotSegmentsAppend :
    (removeDotSegmentsAppend asserts .path dest codec path).Fits
      (path.length * widen dest codec) := by
  unfold removeDotSegmentsAppend
  split_ifs with h
  · exact Out.fits_ok.mono (Nat.zero_le _)
  · exact (fits_codecCvtAppend (by simp [ShortAuthority])).removeDots

/-- What goes before the reference takes no more than the base and one byte. -/
theorem fits_resolvePathAppend (href : ref ≠ []) {root : Bool} :
    (resolvePathAppend asserts dest cb base cr ref root).Fits
      (base.length * widen dest cb + 1 + ref.length * widen dest cr) := by
  unfold resolvePathAppend
  rw [if_neg href]
  dsimp only
  generalize hdir : (if ref.head? ≠ some ('/' : Byte) then _ else Out.ok []) = dir
  have hfits : dir.Fits (base.length * widen dest cb + 1) := by
    have hnil : (Out.ok []).Fits (base.length * widen dest cb + 1) :=
      Out.fits_ok.mono (Nat.zero_le _)
    have hslash : (Out.ok ['/']).Fits 1 := Out.fits_ok
    rw [← hdir]
    by_cases hs : ref.head? = some ('/' : Byte)
    · rw [if_neg (not_not.2 hs)]
      exact hnil
    rw [if_pos hs]
    cases hf : rfind ('/' : Byte) base with
    | none =>
      dsimp only
      split_ifs
      · exact hslash.mono (Nat.le_add_left _ _)
      · exact hnil
    | some q =>
      have hd : q.1.length ≤ base.length := by
        rw [(rfind_eq_some.1 hf).1, List.length_append]
        exact Nat.le_add_right _ _
      have hcvt : (codecCvtAppend asserts .path dest cb q.1).Fits (q.1.length * widen dest cb) :=
        fits_codecCvtAppend (by simp [ShortAuthority])
      exact (hcvt.append hslash).mono (Nat.add_le_add_right (Nat.mul_le_mul_right _ hd) 1)
  have hcvt : (codecCvtAppend asserts .path dest cr ref).Fits (ref.length * widen dest cr) :=
    fits_codecCvtAppend (by simp [ShortAuthority])
  have hall := hfits.append hcvt
  unfold removeDotSegmentsInplace
  split_ifs
  · exact hall
  · exact hall.removeDots

/-! The parts of base and reference. -/

theorem length_trim_le : (trim u).length ≤ u.length := by
  have h₁ := (List.rdropWhile_prefix isSpace (u.dropWhile isSpace)).length_le
  have h₂ := (List.dropWhile_suffix isSpace (l := u)).length_le
  exact h₁.trans h₂

theorem length_parts : ((parts (trim u)).schemeColon.getD []).length +
    ((parts (trim u)).ssAuthority.getD []).length + ((parts (trim u)).path.getD []).length +
      (((parts (trim u)).qmQuery.getD []).length +
        ((parts (trim u)).sharpFrag.getD []).length) ≤ u.length := by
  have h := congrArg List.length (@parts_append (trim u))
  rw [Parts.uri, Parts.queryFrag] at h
  simp only [List.length_append] at h
  rw [h]
  exact length_trim_le

theorem length_ssAuthority_ne : ((parts u).ssAuthority.getD []).length ≠ 1 := by
  cases h : (parts u).ssAuthority with
  | none => simp
  | some m =>
    rw [Option.getD_some, ssAuthority_parts h, List.length_append, show (lit "//").length = 2
      from rfl]
    omega

/-- The text of a scheme and an authority goes on with the authority behind the first colon. -/
theorem not_short_schemeAuthority (h : (parts u).schemeColon ≠ none) :
    ¬ShortAuthority asserts .schemeAuthority dest src (parts u).uri := by
  obtain ⟨m, hm⟩ := Option.ne_none_iff_exists'.1 h
  obtain ⟨a, rfl, ha⟩ := of_matchSchemeColon hm
  have hcolon : (':' : Byte) ∉ a := fun hmem => ha _ hmem (by decide)
  rintro ⟨-, -, -, hlen⟩
  rw [Parts.uri, hm, Option.getD_some, List.append_assoc, List.singleton_append,
    find_append hcolon] at hlen
  exact length_ssAuthority_ne hlen

/-- A text read into components of its own codec fails only with an error of the reader. -/
theorem runActs_error {tags : Tag → Prop} {as : List Act} (hs : comps.StrAt codec tags)
    (h : runActs asserts codec as comps = .error e) : e ≠ .wild := by
  induction as generalizing comps with
  | nil => cases h
  | cons a as ih =>
    by_cases ha : a.Passes asserts codec codec tags
    · obtain ⟨mid, hmid, hs'⟩ := Act.run_of_passes hs ha
      rw [runActs, hmid] at h
      exact ih hs' h
    · cases a with
      | doRead t s =>
        refine absurd (fun _ => ?_) ha
        rw [codecCvtAppend_copy (.inl rfl), Out.stop_ok]
      | assignPort s u => exact absurd trivial ha
      | fail k =>
        rw [runActs, Act.run] at h
        rw [← Except.error.inj h]
        exact Stop.noConfusion

theorem read_fresh_error {tags : List Tag}
    (h : read asserts codec u (freshComps codec tags) = .error e) : e ≠ .wild := by
  refine @runActs_error asserts codec _ _ (fun _ => True) _ ?_ h
  intro t c hc
  refine ⟨trivial, [], ?_⟩
  simp only [Comps.clear, Option.map_eq_some_iff] at hc
  obtain ⟨k, hk, rfl⟩ := hc
  obtain ⟨-, s, rfl⟩ := @strAt_strComps codec _ t k hk
  rfl

/-- The parts of a reference share its room; its authority may take the place of a scheme that
is not written. -/
theorem fits_refParts {r : Comps} (hr : read asserts cr ref (freshComps cr refTags) = .ok r) :
    ∃ a q f, a + (r.text .path).length * widen dest cr + q + f ≤ ref.length * widen dest cr ∧
      (r.text .scheme ≠ [] →
        (codecCvtAppend asserts .schemeAuthority dest cr (r.text .schemeAuthority)).Fits a) ∧
      (codecCvtAppend asserts .ssAuthority dest cr (r.text .ssAuthority)).Fits a ∧
      (codecCvtAppend asserts .qmQuery dest cr (r.text .qmQuery)).Fits q ∧
      (codecCvtAppend asserts .sharpFrag dest cr (r.text .sharpFrag)).Fits f := by
  have hlen := Nat.mul_le_mul_right (widen dest cr) (@length_parts ref)
  simp only [add_mul] at hlen
  have huri : (parts (trim ref)).uri.length = ((parts (trim ref)).schemeColon.getD []).length +
      ((parts (trim ref)).ssAuthority.getD []).length := List.length_append
  rw [text_of_fresh hr (by decide), text_of_fresh hr (by decide), text_of_fresh hr (by decide),
    text_of_fresh hr (by decide), text_of_fresh hr (by decide), text_of_fresh hr (by decide),
    Parts.text_scheme (schemeColon_of_read hr), Parts.text_schemeAuthority,
    Parts.text_ssAuthority, Parts.text_path, Parts.text_qmQuery, Parts.text_sharpFrag]
  refine ⟨(parts (trim ref)).uri.length * widen dest cr, _, _, ?_, fun hne => ?_, ?_,
    fits_codecCvtAppend (by simp [ShortAuthority]),
    fits_codecCvtAppend (by simp [ShortAuthority])⟩
  · rw [huri, add_mul]
    omega
  · refine fits_codecCvtAppend (not_short_schemeAuthority fun h => hne ?_)
    rw [h]
    rfl
  · refine (fits_codecCvtAppend fun h => length_ssAuthority_ne h.2.2.2).mono ?_
    rw [huri, add_mul]
    exact Nat.le_add_left _ _

theorem fits_baseParts {b : Comps} (hb : read asserts cb base (freshComps cb baseTags) = .ok b) :
    ∃ c a q, c + a + (b.text .path).length * widen dest cb + q ≤ base.length * widen dest cb ∧
      (codecCvtAppend asserts .schemeColon dest cb (b.text .schemeColon)).Fits c ∧
      (codecCvtAppend asserts .ssAuthority dest cb (b.text .ssAuthority)).Fits a ∧
      (codecCvtAppend asserts .qmQuery dest cb (b.text .qmQuery)).Fits q := by
  have hlen := Nat.mul_le_mul_right (widen dest cb) (@length_parts base)
  simp only [add_mul] at hlen
  rw [text_of_fresh hb (by decide), text_of_fresh hb (by decide), text_of_fresh hb (by decide),
    text_of_fresh hb (by decide), Parts.text_schemeColon (schemeColon_of_read hb),
    Parts.text_ssAuthority, Parts.text_path, Parts.text_qmQuery]
  exact ⟨_, _, _, by omega, fits_codecCvtAppend (by simp [ShortAuthority]),
    fits_codecCvtAppend fun h => length_ssAuthority_ne h.2.2.2,
    fits_codecCvtAppend (by simp [ShortAuthority])⟩

theorem fits_resolveAppend : (resolveAppend asserts skipFrag dest cb base cr ref).Fits
    (base.length * widen dest cb + 1 + ref.length * widen dest cr) := by
  unfold resolveAppend
  cases hr : read asserts cr ref (freshComps cr refTags) with
  | error e => exact Out.fits_halt (read_fresh_error hr)
  | ok r =>
    obtain ⟨a, q, f, hlen, hsa, hss, hquery, hfrag⟩ := @fits_refParts asserts dest cr ref r hr
    have hpath := @fits_removeDotSegmentsAppend asserts dest cr (r.text .path)
    have hskip : (if skipFrag = true then Out.ok [] else
        codecCvtAppend asserts .sharpFrag dest cr (r.text .sharpFrag)).Fits f := by
      split_ifs
      · exact Out.fits_ok.mono (Nat.zero_le f)
      · exact hfrag
    dsimp only
    by_cases hscheme : r.text .scheme = []
    · rw [if_neg (not_not.2 hscheme)]
      cases hb : read asserts cb base (freshComps cb baseTags) with
      | error e => exact Out.fits_halt (read_fresh_error hb)
      | ok b =>
        obtain ⟨c, a', q', hlen', hcolon, hss', hquery'⟩ :=
          @fits_baseParts asserts dest cb base b hb
        have hpath' : (codecCvtAppend asserts .path dest cb (b.text .path)).Fits
            ((b.text .path).length * widen dest cb) :=
          fits_codecCvtAppend (by simp [ShortAuthority])
        dsimp only
        by_cases hassert : asserts = true ∧ b.text .schemeColon = []
        · rw [if_pos hassert]
          exact Out.fits_halt (by decide)
        rw [if_neg hassert]
        -- what stands between the scheme and the fragment, whichever branch writes it
        refine ((hcolon.append (n := a' + (b.text .path).length * widen dest cb + q' + 1 + a +
          (r.text .path).length * widen dest cr + q) ?_).append hskip).mono (by omega)
        by_cases hauth : r.text .ssAuthority = []
        · rw [if_neg (not_not.2 hauth)]
          by_cases hp : r.text .path = []
          · rw [if_pos hp]
            split_ifs
            · exact (hss'.append (hpath'.append hquery)).mono (by omega)
            · exact (hss'.append (hpath'.append hquery')).mono (by omega)
          · rw [if_neg hp]
            exact (hss'.append ((fits_resolvePathAppend hp).append hquery)).mono (by omega)
        · rw [if_pos hauth]
          exact ((hss.append hpath).append hquery).mono (by omega)
    · rw [if_pos hscheme]
      exact ((((hsa hscheme).append hpath).append hquery).append hskip).mono (by omega)

/-- Everything the resolvers store lies within the room of the base, one byte, and the room of
the reference; the path of a reference must not be empty. -/
theorem resolve_fits (asserts skipFrag root : Bool) (dest cb cr : Codec) (base ref : Bytes) :
    ((resolveAppend asserts skipFrag dest cb base cr ref).peak ≤
        uriMaxWriteSize dest cb base + 1 + uriMaxWriteSize dest cr ref ∧
      (resolveAppend asserts skipFrag dest cb base cr ref).stop ≠ some .wild) ∧
    ((resolvePathAppend asserts dest cb base cr ref root).peak ≤
        maxCodecCvtSize .path dest cb base.length + 1 +
          maxCodecCvtSize .path dest cr ref.length ∧
      (ref ≠ [] → (resolvePathAppend asserts dest cb base cr ref root).stop ≠ some .wild)) := by
  simp only [uriMaxWriteSize_eq, maxCodecCvtSize_path]
  refine ⟨⟨fits_resolveAppend.peak_le, fits_resolveAppend.tame⟩, ?_, fun href =>
    (fits_resolvePathAppend href).tame⟩
  by_cases href : ref = []
  · rw [resolvePathAppend, if_pos href]
    exact Nat.zero_le _
  · exact (fits_resolvePathAppend href).peak_le

theorem resolve_fits_parent :
    (resolvePathAppend false .urlEncoded .urlDecoded (lit "/b c/d") .urlDecoded
      (lit "../e f") true).stop ≠ some .wild :=
  (resolve_fits false false true .urlEncoded .urlDecoded .urlDecoded (lit "/b c/d")
    (lit "../e f")).2.2 (by decide)

end Jkl.Uri
