import Jkl.Uri.ReaderSpec
import Jkl.Uri.WriterSize

/-! The parts a reader delivers put the text together again. -/
namespace Jkl.Uri

open Cut (find rfind)

variable {asserts : Bool} {src codec dest : Codec} {t : Tag} {comps comps' : Comps} {s u m : Bytes}

/-! Trimming. -/

theorem trim_eq_self (hh : ∀ c, s.head? = some c → isSpace c = false)
    (hl : ∀ c, s.getLast? = some c → isSpace c = false) : trim s = s := by
  have hd : s.dropWhile isSpace = s := by
    cases s with
    | nil => rfl
    | cons c s => rw [List.dropWhile_cons_of_neg (by simp [hh c rfl])]
  rw [trim, hd, List.rdropWhile_eq_self_iff]
  intro hne
  simp [hl _ (List.getLast?_eq_some_getLast hne)]

theorem isSpace_head_trim {c : Byte} (h : (trim s).head? = some c) : isSpace c = false := by
  obtain ⟨r, hr⟩ := List.rdropWhile_prefix isSpace (s.dropWhile isSpace)
  have hd : (s.dropWhile isSpace).head? = some c := by
    rw [← hr, List.head?_append]
    exact Option.or_eq_some_iff.2 (.inl h)
  have := List.head?_dropWhile_not isSpace s
  simpa [hd] using this

theorem isSpace_getLast_trim {c : Byte} (h : (trim s).getLast? = some c) : isSpace c = false := by
  have hne : trim s ≠ [] := by
    intro hn
    simp [hn] at h
  have hlast := List.rdropWhile_last_not isSpace (s.dropWhile isSpace) hne
  rw [List.getLast?_eq_some_getLast hne, Option.some.injEq] at h
  rw [← h]
  exact Bool.eq_false_iff.2 hlast

@[simp] theorem trim_trim : trim (trim s) = trim s :=
  trim_eq_self (fun _ => isSpace_head_trim) fun _ => isSpace_getLast_trim

/-! Codecs that copy. -/

theorem codecCvtAppend_copy (h : dest = codec ∨ dest = .asIs ∨ codec = .asIs) :
    codecCvtAppend asserts t dest codec s = .ok s := by
  obtain rfl | rfl | rfl := h
  · cases dest <;> simp [codecCvtAppend]
  · simp [codecCvtAppend]
  · simp [codecCvtAppend]

/-- A component of a codec that copies holds its part untouched. -/
theorem text_of_read_copy (h : read asserts src u comps = .ok comps')
    (hc : comps t = some (.str codec s)) (hcopy : codec = src ∨ codec = .asIs ∨ src = .asIs) :
    comps'.text t = (parts (trim u)).text t := by
  obtain ⟨s', hs', hcvt⟩ := str_of_read h hc
  rw [codecCvtAppend_copy hcopy, Out.ok_inj] at hcvt
  simp [Comps.text, hs', hcvt]

/-- A component that is read as it is holds its part. -/
theorem text_of_fresh {tags : List Tag}
    (h : read asserts codec u (freshComps codec tags) = .ok comps) (ht : t ∈ tags) :
    comps.text t = (parts (trim u)).text t := by
  have hmem : (tags.map fun t => (t, ([] : Bytes))).lookup t = some [] := by
    clear h
    induction tags with
    | nil => simp at ht
    | cons x tags ih =>
      by_cases hx : t = x
      · simp [hx]
      · rw [List.map_cons, List.lookup_cons, beq_false_of_ne hx]
        exact ih ((List.mem_cons.1 ht).resolve_left hx)
  refine text_of_read_copy h (s := []) ?_ (.inl rfl)
  rw [freshComps, strComps, hmem]
  rfl

/-! The authority. -/

theorem ssAuthority_parts (h : (parts u).ssAuthority = some m) : m = lit "//" ++ m.drop 2 := by
  simp only [parts] at h
  unfold matchSsAuthority at h
  split at h
  · rw [← Option.some.inj h]
    rfl
  · simp at h

theorem schemeColon_parts (h : (parts u).schemeColon = some m) :
    m = m.dropLast ++ [(':' : Byte)] := by
  simp only [parts] at h
  unfold matchSchemeColon at h
  split at h
  · next a c b he =>
    split at h
    · next hc => rw [← Option.some.inj h, List.dropLast_concat, hc]
    · simp at h
  · simp at h

theorem Parts.authority_append {p : Parts} (h : p.ssAuthority = some m) :
    p.text .userinfoAt ++ p.text .hostPort = m.drop 2 := by
  rw [Parts.text_userinfoAt, Parts.text_hostPort, Parts.userinfo, Parts.hostPort, h]
  cases hf : find ('@' : Byte) (m.drop 2) with
  | none => simp [hf]
  | some q =>
    have := (Cut.find_eq_some.1 (show find _ _ = some (q.1, q.2) from hf)).1
    simp [hf, ← this]

theorem ssAuthority_text (h : (parts u).text .ssAuthority ≠ []) :
    (parts u).text .ssAuthority =
      lit "//" ++ (parts u).text .userinfoAt ++ (parts u).text .hostPort := by
  rw [Parts.text_ssAuthority] at h ⊢
  cases hs : (parts u).ssAuthority with
  | none => simp [hs] at h
  | some m =>
    rw [List.append_assoc, Parts.authority_append hs]
    exact ssAuthority_parts hs

/-! Writing what was read. -/

theorem exists_read {tags : Tag → Prop} (hs : comps.StrAt codec tags)
    (h : ∀ a ∈ acts (trim u), a.Passes asserts src codec tags) :
    ∃ comps', read asserts src u comps = .ok comps' := by
  refine @exists_runActs _ _ _ _ _ tags (fun t c hc => ?_) h
  cases hk : comps t with
  | none => simp [Comps.clear, hk] at hc
  | some k =>
    obtain ⟨ht, s, rfl⟩ := hs t k hk
    refine ⟨ht, [], ?_⟩
    simpa [Comps.clear, hk, ReadComp.clear] using hc.symm

theorem strAt_strComps {l : List (Tag × Bytes)} :
    (strComps codec l).StrAt codec fun t => t ∈ l.map Prod.fst := by
  intro t c hc
  simp only [strComps, Option.map_eq_some_iff] at hc
  obtain ⟨s, hl, rfl⟩ := hc
  obtain ⟨l₁, l₂, rfl, -⟩ := List.lookup_eq_some_iff.1 hl
  exact ⟨by simp, s, rfl⟩

/-- Whether a text is read without error does not depend on the components it is read into, as
long as they copy. -/
theorem exists_read_fresh (tags : List Tag) (h : ∀ e, .fail e ∉ acts (trim u)) :
    ∃ comps', read asserts codec u (freshComps codec tags) = .ok comps' := by
  refine exists_read strAt_strComps fun a ha => ?_
  cases a with
  | doRead t s =>
    intro _
    rw [codecCvtAppend_copy (.inl rfl), Out.stop_ok]
  | assignPort s u => trivial
  | fail e => exact absurd ha (h e)

theorem parts_text (h : (parts u).schemeColon.elim True fun m => m.length ≠ 1) :
    (parts u).text .schemeColon ++ (parts u).text .ssAuthority ++ (parts u).text .path ++
      (parts u).text .qmQueryFrag = u := by
  rw [Parts.text_schemeColon h, Parts.text_ssAuthority, Parts.text_path, Parts.text_qmQueryFrag]
  exact parts_append

theorem assignUri_asIs (h : read asserts src u comps = .ok comps') :
    assignUri asserts .asIs codec u = .ok (trim u) := by
  let l := [Tag.schemeColon, .ssAuthority, .path, .qmQueryFrag].map fun t => (t, ([] : Bytes))
  obtain ⟨comps₁, h₁⟩ : ∃ comps₁, read asserts codec u (strComps codec l) = .ok comps₁ :=
    exists_read_fresh [.schemeColon, .ssAuthority, .path, .qmQueryFrag] (fail_not_mem h)
  have htext : ∀ t, (∃ s, strComps codec l t = some (.str codec s)) →
      comps₁.text t = (parts (trim u)).text t :=
    fun t ht => text_of_read_copy h₁ ht.choose_spec (.inl rfl)
  have hout : ∀ t s, codecCvtAppend asserts t .asIs codec s = .ok s :=
    fun t s => codecCvtAppend_copy (.inr (.inl rfl))
  have hassign := @WriteComps.assignTo_eq asserts (.ofTexts codec
      fun t => if t ∈ [Tag.schemeColon, .ssAuthority, .path, .qmQueryFrag] then
        some (comps₁.text t) else none) .asIs rfl (by simp [WriteComps.ofTexts])
  simp only [assignUri]
  rw [h₁]
  refine hassign.trans ?_
  simp [WriteComps.appendTo, WriteComps.appendAuthority,
    WriteComps.appendScheme, WriteComps.appendPath, WriteComps.ofTexts, WriteComp.write, hout]
  rw [htext _ ⟨[], rfl⟩, htext _ ⟨[], rfl⟩, htext _ ⟨[], rfl⟩, htext _ ⟨[], rfl⟩]
  simpa only [List.append_assoc] using parts_text (schemeColon_of_read h)

/-- The tags of a split that loses nothing, and of the two parts of an authority. -/
def splitTags : List Tag :=
  [.schemeColon, .ssAuthority, .path, .qmQueryFrag, .userinfoAt, .hostPort]

/-- A split that succeeds loses nothing: the as-is parts are the trimmed text, the authority is
its own parts, and the text written from them reads the same. -/
theorem split_lossless (asserts : Bool) (src : Codec) (u : Bytes) (comps comps' : Comps)
    (hc : ∀ t ∈ splitTags, ∃ s, comps t = some (.str .asIs s))
    (h : read asserts src u comps = .ok comps') :
    comps'.text .schemeColon ++ comps'.text .ssAuthority ++ comps'.text .path ++
        comps'.text .qmQueryFrag = trim u ∧
      (comps'.text .ssAuthority ≠ [] → comps'.text .ssAuthority =
        lit "//" ++ comps'.text .userinfoAt ++ comps'.text .hostPort) ∧
      ∀ codec, ∃ d, assignUri asserts .asIs codec u = .ok d ∧ d = trim u ∧
        read asserts src d comps = .ok comps' := by
  have htext : ∀ t ∈ splitTags, comps'.text t = (parts (trim u)).text t :=
    fun t ht => text_of_read_copy h (hc t ht).choose_spec (.inr (.inl rfl))
  rw [htext .schemeColon (by decide), htext .ssAuthority (by decide), htext .path (by decide),
    htext .qmQueryFrag (by decide), htext .userinfoAt (by decide), htext .hostPort (by decide)]
  refine ⟨parts_text (schemeColon_of_read h), ssAuthority_text, fun codec => ?_⟩
  refine ⟨_, assignUri_asIs h, rfl, ?_⟩
  rwa [read, trim_trim]

theorem exists_eq_ok {ε α : Type*} {r : Except ε α} (h : r.isOk = true) : ∃ a, r = .ok a := by
  cases r with
  | error e => simp [Except.isOk, Except.toBool] at h
  | ok a => exact ⟨a, rfl⟩

theorem split_lossless_mailbox : ∃ comps', read true .urlEncoded
    (lit " http://me@[::1]:80/a%20b?q#f ") (strComps .asIs (splitTags.map fun t => (t, []))) =
      .ok comps' ∧
    comps'.text .schemeColon ++ comps'.text .ssAuthority ++ comps'.text .path ++
      comps'.text .qmQueryFrag = trim (lit " http://me@[::1]:80/a%20b?q#f ") := by
  obtain ⟨comps', h⟩ := exists_eq_ok (r := read true .urlEncoded
    (lit " http://me@[::1]:80/a%20b?q#f ") (strComps .asIs (splitTags.map fun t => (t, []))))
    (by decide +kernel)
  refine ⟨comps', h, (split_lossless true .urlEncoded _ _ _ (fun t ht => ⟨[], ?_⟩) h).1⟩
  revert t
  decide

end Jkl.Uri
