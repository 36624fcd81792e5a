import Jkl.Uri.CodecSpec
import Jkl.Uri.Reader

/-! What a reader has in its components when it is done: each has the last text read for its
tag. The texts the acts of `read` mention are the parts of the input. -/
namespace Jkl.Uri

open Cut (find rfind findFirstOf findFirstOf_append)

variable {asserts : Bool} {src codec : Codec} {t : Tag} {as bs : List Act} {comps comps' : Comps}
  {s u v m : Bytes}

/-! Runs of acts. -/

def Act.reads (t : Tag) : Act → Option Bytes
  | doRead t' s => if t' = t then some s else none
  | _ => none

/-- The last text read for the tag. -/
def lastText (t : Tag) : List Act → Option Bytes
  | [] => none
  | a :: as => (lastText t as).or (a.reads t)

@[simp] theorem lastText_nil : lastText t [] = none := rfl

@[simp] theorem lastText_cons {a : Act} :
    lastText t (a :: as) = (lastText t as).or (a.reads t) := rfl

@[simp] theorem lastText_append : lastText t (as ++ bs) = (lastText t bs).or (lastText t as) := by
  induction as with
  | nil => simp
  | cons a as ih => rw [List.cons_append, lastText_cons, ih, lastText_cons, Option.or_assoc]

@[simp] theorem lastText_elim {o : Option Bytes} {f : Bytes → List Act} :
    lastText t (o.elim [] f) = o.bind fun m => lastText t (f m) := by
  cases o <;> rfl

@[simp] theorem lastText_ite {q : Prop} [Decidable q] :
    lastText t (if q then [] else as) = if q then none else lastText t as := by
  split <;> rfl

@[simp] theorem Act.reads_doRead {t' : Tag} :
    (Act.doRead t' s).reads t = if t' = t then some s else none := rfl

@[simp] theorem Act.reads_assignPort : (Act.assignPort s u).reads t = none := rfl

@[simp] theorem Act.reads_fail {e : UriErr} : (Act.fail e).reads t = none := rfl

/-- The component after the acts whose last text for its tag is `x`. -/
def AfterRead (asserts : Bool) (t : Tag) (codec src : Codec) (s : Bytes) (x : Option Bytes)
    (s' : Bytes) : Prop :=
  match x with
  | none => s' = s
  | some x => codecCvtAppend asserts t codec src x = .ok s'

/-- A step that succeeded put into its component what that made of the text. -/
def Act.Did (asserts : Bool) (src : Codec) (comps comps' : Comps) : Act → Prop
  | doRead t s => comps t = none ∧ comps' = comps ∨
      ∃ c c', comps t = some c ∧ c.read asserts t src s = .ok c' ∧
        comps' = Function.update comps t (some c')
  | assignPort s u => comps .autoPort = none ∧ comps' = comps ∨
      ∃ c c', comps .autoPort = some c ∧ c.assignPort s u = .ok c' ∧
        comps' = Function.update comps .autoPort (some c')
  | fail _ => False

theorem Act.did_of_run {a : Act} (h : a.run asserts src comps = .ok comps') :
    a.Did asserts src comps comps' := by
  cases a with
  | fail e => simp [run] at h
  | assignPort x u =>
    cases hc : comps .autoPort with
    | none => exact .inl ⟨hc, by simpa [run, hc] using h.symm⟩
    | some c =>
      cases hr : c.assignPort x u with
      | error e => simp [run, hc, hr, Except.map] at h
      | ok c' => exact .inr ⟨c, c', hc, hr, by simpa [run, hc, hr, Except.map] using h.symm⟩
  | doRead t x =>
    cases hc : comps t with
    | none => exact .inl ⟨hc, by simpa [run, hc] using h.symm⟩
    | some c =>
      cases hr : c.read asserts t src x with
      | error e => simp [run, hc, hr, Except.map] at h
      | ok c' => exact .inr ⟨c, c', hc, hr, by simpa [run, hc, hr, Except.map] using h.symm⟩

theorem Act.str_of_did {a : Act} (h : a.Did asserts src comps comps')
    (hc : comps t = some (.str codec s)) :
    ∃ s', comps' t = some (.str codec s') ∧ AfterRead asserts t codec src s (a.reads t) s' := by
  cases a with
  | fail e => exact absurd h id
  | assignPort x u =>
    refine ⟨s, ?_, rfl⟩
    obtain ⟨-, rfl⟩ | ⟨c, c', hk, hr, rfl⟩ := h
    · exact hc
    · by_cases ht : t = .autoPort
      · -- a string component is not assigned a port
        rw [ht, hk, Option.some.injEq] at hc
        rw [hc] at hr
        rw [ht, Function.update_self, ← Except.ok.inj hr]
      · rw [Function.update_of_ne ht, hc]
  | doRead t' x =>
    by_cases ht : t' = t
    · obtain ⟨hk, -⟩ | ⟨c, c', hk, hr, rfl⟩ := h
      · simp [ht, hc] at hk
      · rw [ht, hc, Option.some.injEq] at hk
        rw [← hk, ht] at hr
        simp only [ReadComp.read] at hr
        cases hs : (codecCvtAppend asserts t codec src x).stop with
        | some e => simp [hs] at hr
        | none =>
          simp only [hs, Except.ok.injEq] at hr
          refine ⟨_, by rw [ht, Function.update_self, ← hr], ?_⟩
          simpa [AfterRead, ht] using exact_codecCvtAppend.eq_ok hs
    · refine ⟨s, ?_, by simp [AfterRead, ht]⟩
      obtain ⟨-, rfl⟩ | ⟨c, c', hk, hr, rfl⟩ := h
      · exact hc
      · rw [Function.update_of_ne (Ne.symm ht), hc]

theorem Act.none_of_did {a : Act} (h : a.Did asserts src comps comps') (hc : comps t = none) :
    comps' t = none := by
  cases a with
  | fail e => exact absurd h id
  | assignPort x u =>
    obtain ⟨-, rfl⟩ | ⟨c, c', hk, -, rfl⟩ := h
    · exact hc
    · rw [Function.update_of_ne (fun e => by simp [← e, hc] at hk), hc]
  | doRead t' x =>
    obtain ⟨-, rfl⟩ | ⟨c, c', hk, -, rfl⟩ := h
    · exact hc
    · rw [Function.update_of_ne (fun e => by simp [← e, hc] at hk), hc]

theorem runActs_cons_ok {a : Act} (h : runActs asserts src (a :: as) comps = .ok comps') :
    ∃ mid, a.Did asserts src comps mid ∧ runActs asserts src as mid = .ok comps' := by
  simp only [runActs] at h
  cases hr : a.run asserts src comps with
  | error e => simp [hr, Except.bind] at h
  | ok mid => exact ⟨mid, Act.did_of_run hr, by simpa [hr, Except.bind] using h⟩

theorem runActs_str (h : runActs asserts src as comps = .ok comps')
    (hc : comps t = some (.str codec s)) :
    ∃ s', comps' t = some (.str codec s') ∧ AfterRead asserts t codec src s (lastText t as) s' := by
  induction as generalizing comps s with
  | nil => exact ⟨s, by rw [← Except.ok.inj h, hc], rfl⟩
  | cons a as ih =>
    obtain ⟨mid, hdid, hrest⟩ := runActs_cons_ok h
    obtain ⟨s₁, hmid, h₁⟩ := Act.str_of_did hdid hc
    obtain ⟨s₂, hend, h₂⟩ := ih hrest hmid
    refine ⟨s₂, hend, ?_⟩
    rw [lastText_cons]
    cases hl : lastText t as with
    | some x => rwa [hl] at h₂
    | none =>
      rw [hl] at h₂
      rw [Option.none_or, show s₂ = s₁ from h₂]
      exact h₁

theorem runActs_none (h : runActs asserts src as comps = .ok comps') (hc : comps t = none) :
    comps' t = none := by
  induction as generalizing comps with
  | nil => rw [← Except.ok.inj h, hc]
  | cons a as ih =>
    obtain ⟨mid, hdid, hrest⟩ := runActs_cons_ok h
    exact ih hrest (Act.none_of_did hdid hc)

/-- A reader with string components of the codec, at the tags, gets through the act. -/
def Act.Passes (asserts : Bool) (src codec : Codec) (tags : Tag → Prop) : Act → Prop
  | doRead t s => tags t → (codecCvtAppend asserts t codec src s).stop = none
  | assignPort _ _ => True
  | fail _ => False

/-- Only string components of the codec, and only at the tags. -/
def Comps.StrAt (codec : Codec) (tags : Tag → Prop) (comps : Comps) : Prop :=
  ∀ t c, comps t = some c → tags t ∧ ∃ s, c = .str codec s

theorem Comps.StrAt.update {tags : Tag → Prop} (hs : comps.StrAt codec tags) (ht : tags t) :
    Comps.StrAt codec tags (Function.update comps t (some (.str codec s))) := by
  intro t' c hc
  by_cases he : t' = t
  · rw [he, Function.update_self, Option.some.injEq] at hc
    exact ⟨he ▸ ht, s, hc.symm⟩
  · rw [Function.update_of_ne he] at hc
    exact hs t' c hc

theorem Act.run_of_passes {tags : Tag → Prop} {a : Act} (hs : comps.StrAt codec tags)
    (ha : a.Passes asserts src codec tags) :
    ∃ comps', a.run asserts src comps = .ok comps' ∧ comps'.StrAt codec tags := by
  cases a with
  | fail e => exact absurd ha id
  | assignPort x u =>
    cases hc : comps .autoPort with
    | none => exact ⟨comps, by simp [run, hc], hs⟩
    | some c =>
      obtain ⟨ht, s, rfl⟩ := hs _ _ hc
      exact ⟨_, by simp only [run, hc]; rfl, hs.update ht⟩
  | doRead t x =>
    cases hc : comps t with
    | none => exact ⟨comps, by simp [run, hc], hs⟩
    | some c =>
      obtain ⟨ht, s, rfl⟩ := hs _ _ hc
      have hstop : (codecCvtAppend asserts t codec src x).stop = none := ha ht
      exact ⟨_, by simp only [run, hc, ReadComp.read, hstop]; rfl, hs.update ht⟩

theorem exists_runActs {tags : Tag → Prop} (hs : comps.StrAt codec tags)
    (h : ∀ a ∈ as, a.Passes asserts src codec tags) :
    ∃ comps', runActs asserts src as comps = .ok comps' := by
  induction as generalizing comps with
  | nil => exact ⟨comps, rfl⟩
  | cons a as ih =>
    obtain ⟨mid, hrun, hmid⟩ := Act.run_of_passes hs (h a List.mem_cons_self)
    obtain ⟨comps', hend⟩ := ih hmid fun b hb => h b (List.mem_cons_of_mem a hb)
    exact ⟨comps', by simp only [runActs, hrun, Except.bind, hend]⟩

/-! Each `match_` function splits the text it is given. -/

theorem matchSchemeColon_append : (matchSchemeColon v).1.getD [] ++ (matchSchemeColon v).2 = v := by
  unfold matchSchemeColon
  have h := findFirstOf_append (p := fun c => decide (c ∈ lit ":/?#")) (s := v)
  split
  · next a c b he =>
    rw [he] at h
    split
    · simpa using h
    · rfl
  · rfl

theorem matchSsAuthority_append : (matchSsAuthority v).1.getD [] ++ (matchSsAuthority v).2 = v := by
  unfold matchSsAuthority
  split
  · next h =>
    obtain ⟨w, rfl⟩ := h
    simp [lit, findFirstOf_append]
  · rfl

theorem matchPath_append : (matchPath v).1.getD [] ++ (matchPath v).2 = v := by
  unfold matchPath
  split
  · rfl
  · exact findFirstOf_append

theorem matchQmQuery_append : (matchQmQuery v).1.getD [] ++ (matchQmQuery v).2 = v := by
  unfold matchQmQuery
  split
  · split
    · simp [findFirstOf_append]
    · rfl
  · rfl

theorem matchSharpFrag_append : (matchSharpFrag v).1.getD [] ++ (matchSharpFrag v).2 = v := by
  unfold matchSharpFrag
  split <;> simp

/-! A text put together from parts is taken apart at their ends. -/

section Match

variable {a r : Bytes}

theorem matchSchemeColon_eq (ha : ∀ x ∈ a, x ∉ lit ":/?#") :
    matchSchemeColon (a ++ (':' : Byte) :: r) = (some (a ++ [(':' : Byte)]), r) := by
  unfold matchSchemeColon
  rw [Cut.findFirstOf_eq (by simpa using ha) (by simp [lit])]
  simp

theorem matchSchemeColon_none (h : ∀ x, v.head? = some x → x ∈ lit "/?#") :
    matchSchemeColon v = (none, v) := by
  cases v with
  | nil => rfl
  | cons c v =>
    have hc : c ∈ lit "/?#" := h c rfl
    have hne : c ≠ ':' := by
      rintro rfl
      revert hc
      decide
    have hmem : c ∈ lit ":/?#" := List.mem_cons_of_mem _ hc
    simp [matchSchemeColon, findFirstOf, hmem, hne]

theorem matchSsAuthority_eq (ha : ∀ x ∈ a, x ∉ lit "/?#")
    (hr : ∀ x, r.head? = some x → x ∈ lit "/?#") :
    matchSsAuthority (lit "//" ++ a ++ r) = (some (lit "//" ++ a), r) := by
  unfold matchSsAuthority
  rw [if_pos ⟨a ++ r, by simp⟩]
  have hdrop : (lit "//" ++ a ++ r).drop 2 = a ++ r := by simp [lit]
  rw [hdrop, Cut.findFirstOf_eq (by simpa using ha) (by simpa using hr)]

theorem matchSsAuthority_none (h : ¬lit "//" <+: v) : matchSsAuthority v = (none, v) := by
  rw [matchSsAuthority, if_neg h]

theorem matchPath_eq (ha : ∀ x ∈ a, x ∉ lit "?#") (hr : ∀ x, r.head? = some x → x ∈ lit "?#") :
    (matchPath (a ++ r)).1.getD [] = a ∧ (matchPath (a ++ r)).2 = r := by
  unfold matchPath
  split
  · next h => simp [List.append_eq_nil_iff.1 h]
  · rw [Cut.findFirstOf_eq (by simpa using ha) (by simpa using hr)]
    simp

theorem matchQmQuery_eq (ha : ∀ x ∈ a, x ≠ '#') (hr : ∀ x, r.head? = some x → x = '#') :
    matchQmQuery (('?' : Byte) :: a ++ r) = (some (('?' : Byte) :: a), r) := by
  rw [List.cons_append, matchQmQuery, if_pos rfl]
  simp only [Cut.findFirstOf_eq (p := fun c : Byte => c = '#') (by simpa using ha)
    (by simpa using hr)]

theorem matchQmQuery_none (h : v.head? ≠ some ('?' : Byte)) : matchQmQuery v = (none, v) := by
  cases v with
  | nil => rfl
  | cons c v => simp only [matchQmQuery, if_neg (fun e => h (by rw [e]; rfl) : c ≠ '?')]

theorem matchSharpFrag_eq (h : ∀ x, v.head? = some x → x = '#') :
    (matchSharpFrag v).1.getD [] = v := by
  cases v with
  | nil => rfl
  | cons c v => simp [matchSharpFrag, h c rfl]

end Match

/-! What each of them matched holds no delimiter that ends it. -/

theorem of_matchSchemeColon {m : Bytes} (h : (matchSchemeColon v).1 = some m) :
    ∃ a, m = a ++ [(':' : Byte)] ∧ ∀ x ∈ a, x ∉ lit ":/?#" := by
  unfold matchSchemeColon at h
  have hstop : ∀ x ∈ (findFirstOf (fun c => decide (c ∈ lit ":/?#")) v).1, x ∉ lit ":/?#" :=
    fun x hx => by simpa using Cut.not_stop_of_mem hx
  split at h
  · next a c b he =>
    rw [he] at hstop
    split_ifs at h with hc
    · exact ⟨a, by rw [← Option.some.inj h, hc], hstop⟩
  · cases h

theorem of_matchSsAuthority {m : Bytes} (h : (matchSsAuthority v).1 = some m) :
    ∃ a, m = lit "//" ++ a ∧ (∀ x ∈ a, x ∉ lit "/?#") ∧
      ∀ x, (matchSsAuthority v).2.head? = some x → x ∈ lit "/?#" := by
  unfold matchSsAuthority at h ⊢
  split_ifs at h ⊢ with hp
  refine ⟨_, (Option.some.inj h).symm, fun x hx => ?_, fun x hx => ?_⟩
  · simpa using Cut.not_stop_of_mem hx
  · simpa using Cut.stop_of_head hx

theorem not_mem_matchPath {x : Byte} (h : x ∈ (matchPath v).1.getD []) : x ∉ lit "?#" := by
  unfold matchPath at h
  split_ifs at h
  · simp at h
  · simpa using Cut.not_stop_of_mem h

theorem of_matchQmQuery {m : Bytes} (h : (matchQmQuery v).1 = some m) :
    ∃ q, m = ('?' : Byte) :: q ∧ ∀ x ∈ q, x ≠ '#' := by
  cases v with
  | nil => cases h
  | cons c v =>
    unfold matchQmQuery at h
    dsimp only at h
    split_ifs at h with hc
    refine ⟨_, by rw [← Option.some.inj h, hc], fun x hx => ?_⟩
    simpa using Cut.not_stop_of_mem hx

theorem head_matchSharpFrag {c : Byte} (h : ((matchSharpFrag v).1.getD []).head? = some c) :
    c = '#' := by
  unfold matchSharpFrag at h
  split_ifs at h with hv
  · rw [Option.getD_some, hv] at h
    exact (Option.some.inj h).symm
  · simp at h

theorem head_matchPath {c : Byte} (h : (matchPath v).2.head? = some c) : c = '?' ∨ c = '#' := by
  unfold matchPath at h
  split at h
  · next hv => simp [hv] at h
  · have := Cut.stop_of_head h
    simpa [lit] using this

theorem head_matchQmQuery {c : Byte} (h : (matchQmQuery v).2.head? = some c)
    (hv : ∀ c, v.head? = some c → c = ('?' : Char).toUInt8 ∨ c = '#') : c = '#' := by
  unfold matchQmQuery at h
  split at h
  · next x w =>
    split at h
    · simpa using Cut.stop_of_head h
    · next hx =>
      have := hv c h
      simp only [List.head?_cons, Option.some.injEq] at h
      rw [h] at hx
      exact this.resolve_left hx
  · simp at h

/-- What the reader matches in a trimmed text, part by part. -/
structure Parts where
  schemeColon : Option Bytes
  ssAuthority : Option Bytes
  path : Option Bytes
  qmQuery : Option Bytes
  sharpFrag : Option Bytes

def parts (u : Bytes) : Parts :=
  let s := matchSchemeColon u
  let a := matchSsAuthority s.2
  let p := matchPath a.2
  let q := matchQmQuery p.2
  ⟨s.1, a.1, p.1, q.1, (matchSharpFrag q.2).1⟩

namespace Parts

/-- The text from the start up to the path. -/
def uri (p : Parts) : Bytes := p.schemeColon.getD [] ++ p.ssAuthority.getD []

/-- The text from the end of the path on. -/
def queryFrag (p : Parts) : Bytes := p.qmQuery.getD [] ++ p.sharpFrag.getD []

def acts (p : Parts) : List Act :=
  p.schemeColon.elim [] schemeActs ++ p.ssAuthority.elim [] (authorityActs p.uri) ++
    [.doRead .schemeAuthority p.uri] ++ p.path.elim [] pathActs ++
    if p.queryFrag = [] then []
    else
      p.qmQuery.elim [] queryActs ++ p.sharpFrag.elim [] fragActs ++
        [.doRead .qmQueryFrag p.queryFrag]

end Parts

/-- The query and the fragment take all that the path leaves. -/
theorem queryFrag_parts :
    (parts u).queryFrag = (matchPath (matchSsAuthority (matchSchemeColon u).2).2).2 := by
  simp only [parts, Parts.queryFrag]
  generalize hv : (matchPath (matchSsAuthority (matchSchemeColon u).2).2).2 = v
  have hq := matchQmQuery_append (v := v)
  have hf := matchSharpFrag_append (v := (matchQmQuery v).2)
  have hend : (matchSharpFrag (matchQmQuery v).2).2 = [] := by
    unfold matchSharpFrag
    split
    · rfl
    · next hne =>
      cases hw : (matchQmQuery v).2 with
      | nil => rfl
      | cons c w =>
        have hc : c = '#' := by
          refine head_matchQmQuery (v := v) (by rw [hw]; rfl) fun d hd => ?_
          exact head_matchPath (by rw [hv]; exact hd)
        simp [hw, hc] at hne
  rw [hend, List.append_nil] at hf
  rw [hf, hq]

/-- Nothing of the text is dropped or counted twice. -/
theorem parts_append :
    (parts u).uri ++ (parts u).path.getD [] ++ (parts u).queryFrag = u := by
  rw [queryFrag_parts]
  simp only [parts, Parts.uri, List.append_assoc]
  rw [matchPath_append, matchSsAuthority_append, matchSchemeColon_append]

theorem acts_eq_parts : acts u = (parts u).acts := by
  have h : (matchPath (matchSsAuthority (matchSchemeColon u).2).2).2 = [] ↔
      (parts u).queryFrag = [] := by rw [queryFrag_parts]
  exact congrArg _ (if_congr h rfl rfl)

/-! The texts of each section of the acts. -/

@[simp] theorem lastText_schemeActs : lastText t (schemeActs m) =
    if m.length = 1 then none
    else if t = .scheme then some m.dropLast
    else if t = .schemeColon then some m else none := by
  unfold schemeActs
  split_ifs <;> simp_all [eq_comm]

@[simp] theorem lastText_portActs (h : t ≠ .port) : lastText t (portActs u m) = none := by
  unfold portActs
  split
  · split <;> simp [h.symm]
  · simp

@[simp] theorem lastText_hostPortActs (h₁ : t ≠ .hostPort) (h₂ : t ≠ .host) (h₃ : t ≠ .port) :
    lastText t (hostPortActs u m) = none := by
  unfold hostPortActs
  split
  · rfl
  · split <;> split <;> simp [h₁.symm, h₂.symm, lastText_portActs h₃]

@[simp] theorem lastText_hostPort :
    lastText .hostPort (hostPortActs u m) = if m = [] then none else some m := by
  unfold hostPortActs
  split
  · rfl
  · split <;> split <;> simp [lastText_portActs]

@[simp] theorem lastText_userinfoActs (h₁ : t ≠ .user) (h₂ : t ≠ .password) :
    lastText t (userinfoActs m) =
      if t = .userinfoAt then some (m ++ [('@' : Byte)])
      else if t = .userinfo then some m else none := by
  unfold userinfoActs
  split <;> split_ifs <;> simp_all [eq_comm]

@[simp] theorem lastText_fileActs (h₁ : t ≠ .file) (h₂ : t ≠ .fileName) (h₃ : t ≠ .fileExt)
    (h₄ : t ≠ .fileDotExt) : lastText t (fileActs m) = none := by
  unfold fileActs
  split
  · rfl
  · split <;> simp [h₁.symm, h₂.symm, h₃.symm, h₄.symm]

/-- The host, and what follows it; there is none after an unterminated `'['`. -/
def hostCut (m : Bytes) : Option (Bytes × Bytes) :=
  if m.head? = some ('[' : Byte) then
    (rfind (']' : Byte) m).map fun q => (q.1 ++ [(']' : Byte)], q.2)
  else some ((rfind (':' : Byte) m).elim (m, []) fun q => (q.1, ':' :: q.2))

/-- The port in what follows the host. -/
def portOf (m : Bytes) : Bytes := if m.head? = some (':' : Byte) then m.tail else []

theorem hostPortActs_eq : hostPortActs u m =
    if m = [] then []
    else .doRead .hostPort m :: (hostCut m).elim [.fail .unterminatedIpv6] fun q =>
      .doRead .host q.1 :: portActs u q.2 := by
  unfold hostPortActs hostCut
  split
  · rfl
  · split
    · cases rfind (']' : Byte) m <;> simp
    · cases rfind (':' : Byte) m <;> simp

theorem lastText_port :
    lastText .port (portActs u m) = if m.head? = some (':' : Byte) then some m.tail else none := by
  unfold portActs
  cases m with
  | nil => simp
  | cons c m =>
    by_cases hc : c = ':'
    · simp [hc]
    · simp [hc]

variable {p : Parts}

namespace Parts

def userinfo (p : Parts) : Option Bytes :=
  p.ssAuthority.bind fun m => (find ('@' : Byte) (m.drop 2)).map Prod.fst

def hostPort (p : Parts) : Bytes :=
  p.ssAuthority.elim [] fun m => (find ('@' : Byte) (m.drop 2)).elim (m.drop 2) Prod.snd

/-- The text read for a tag; a part that is not there counts as empty. -/
def text (p : Parts) (t : Tag) : Bytes := (lastText t p.acts).getD []

end Parts

@[simp] theorem lastText_authorityActs (h₃ : t ≠ .host) (h₄ : t ≠ .port) :
    lastText t (authorityActs u m) =
      if t = .ssAuthority then some m
      else if t = .hostPort then lastText .hostPort
        (hostPortActs u ((find ('@' : Byte) (m.drop 2)).elim (m.drop 2) Prod.snd))
      else (find ('@' : Byte) (m.drop 2)).bind fun p => lastText t (userinfoActs p.1) := by
  unfold authorityActs
  cases hf : find ('@' : Byte) (m.drop 2) with
  | none =>
    by_cases h : t = .hostPort
    · simp [h]
    · simp [lastText_hostPortActs h h₃ h₄, h, eq_comm]
  | some p =>
    by_cases h : t = .hostPort
    · simp [h, lastText_userinfoActs]
    · by_cases hs : t = .ssAuthority
      · simp [hs, lastText_userinfoActs, lastText_hostPortActs]
      · simp [lastText_hostPortActs h h₃ h₄, h, hs, Ne.symm hs]

@[simp] theorem lastText_pathActs (h₁ : t ≠ .file) (h₂ : t ≠ .fileName) (h₃ : t ≠ .fileExt)
    (h₄ : t ≠ .fileDotExt) (h₅ : t ≠ .dirPath) :
    lastText t (pathActs m) = if t = .path then some m else none := by
  unfold pathActs
  split <;> simp [lastText_fileActs h₁ h₂ h₃ h₄, h₅.symm, eq_comm]

@[simp] theorem lastText_queryActs : lastText t (queryActs m) =
    if t = .query then some m.tail else if t = .qmQuery then some m else none := by
  unfold queryActs
  split_ifs <;> simp_all [eq_comm]

@[simp] theorem lastText_fragActs : lastText t (fragActs m) =
    if t = .frag then some m.tail else if t = .sharpFrag then some m else none := by
  unfold fragActs
  split_ifs <;> simp_all [eq_comm]

namespace Parts

theorem text_ssAuthority : p.text .ssAuthority = p.ssAuthority.getD [] := by
  simp [text, acts]

theorem text_schemeColon (h : p.schemeColon.elim True fun m => m.length ≠ 1) :
    p.text .schemeColon = p.schemeColon.getD [] := by
  cases hs : p.schemeColon <;> simp_all [text, acts]

theorem text_scheme (h : p.schemeColon.elim True fun m => m.length ≠ 1) :
    p.text .scheme = (p.schemeColon.getD []).dropLast := by
  cases hs : p.schemeColon <;> simp_all [text, acts]

theorem text_schemeAuthority : p.text .schemeAuthority = p.uri := by
  simp [text, acts]

theorem text_userinfo : p.text .userinfo = p.userinfo.getD [] := by
  cases ha : p.ssAuthority with
  | none => simp [text, acts, userinfo, ha]
  | some m => cases hf : find ('@' : Byte) (m.drop 2) <;> simp [text, acts, userinfo, ha, hf]

theorem text_userinfoAt :
    p.text .userinfoAt = p.userinfo.elim [] fun i => i ++ [('@' : Byte)] := by
  cases ha : p.ssAuthority with
  | none => simp [text, acts, userinfo, ha]
  | some m => cases hf : find ('@' : Byte) (m.drop 2) <;> simp [text, acts, userinfo, ha, hf]

theorem text_hostPort : p.text .hostPort = p.hostPort := by
  cases ha : p.ssAuthority with
  | none => simp [text, acts, hostPort, ha]
  | some m =>
    by_cases h : (find ('@' : Byte) (m.drop 2)).elim (m.drop 2) Prod.snd = []
    · simp [text, acts, hostPort, ha, h]
    · simp [text, acts, hostPort, ha, h]

theorem text_user : p.text .user =
    p.userinfo.elim [] fun i => (find (':' : Byte) i).elim i Prod.fst := by
  cases ha : p.ssAuthority with
  | none => simp [text, acts, userinfo, ha]
  | some m =>
    cases hf : find ('@' : Byte) (m.drop 2) with
    | none => simp [text, acts, userinfo, ha, hf]
    | some q => cases hc : find (':' : Byte) q.1 <;>
        simp [text, acts, userinfo, ha, hf, userinfoActs, hc]

theorem text_password : p.text .password =
    p.userinfo.elim [] fun i => (find (':' : Byte) i).elim [] Prod.snd := by
  cases ha : p.ssAuthority with
  | none => simp [text, acts, userinfo, ha]
  | some m =>
    cases hf : find ('@' : Byte) (m.drop 2) with
    | none => simp [text, acts, userinfo, ha, hf]
    | some q => cases hc : find (':' : Byte) q.1 <;>
        simp [text, acts, userinfo, ha, hf, userinfoActs, hc]

theorem text_of_hostPortActs (h : t = .host ∨ t = .port) :
    p.text t = (lastText t (hostPortActs p.uri p.hostPort)).getD [] := by
  cases ha : p.ssAuthority with
  | none => obtain rfl | rfl := h <;> simp [text, acts, hostPort, ha, hostPortActs]
  | some m =>
    cases hf : find ('@' : Byte) (m.drop 2) <;> obtain rfl | rfl := h <;>
      simp [text, acts, hostPort, ha, hf, authorityActs]

theorem text_host : p.text .host = (hostCut p.hostPort).elim [] Prod.fst := by
  rw [text_of_hostPortActs (.inl rfl), hostPortActs_eq]
  by_cases h : p.hostPort = []
  · simp [h, hostCut, rfind]
  · cases hc : hostCut p.hostPort <;> simp [h]

theorem text_port : p.text .port = (hostCut p.hostPort).elim [] fun q => portOf q.2 := by
  rw [text_of_hostPortActs (.inr rfl), hostPortActs_eq]
  by_cases h : p.hostPort = []
  · simp [h, hostCut, rfind, portOf]
  · cases hc : hostCut p.hostPort with
    | none => simp [h]
    | some q =>
      simp only [h, if_false, Option.elim, lastText_cons, lastText_port, portOf]
      split <;> simp

theorem text_path : p.text .path = p.path.getD [] := by
  simp [text, acts]

theorem text_qmQueryFrag : p.text .qmQueryFrag = p.queryFrag := by
  by_cases h : p.queryFrag = [] <;> simp [text, acts, h]

theorem text_qmQuery : p.text .qmQuery = p.qmQuery.getD [] := by
  by_cases h : p.queryFrag = []
  · have := (List.append_eq_nil_iff.1 h).1
    simp [text, acts, h, this]
  · simp [text, acts, h]

theorem text_query : p.text .query = (p.qmQuery.getD []).tail := by
  by_cases h : p.queryFrag = []
  · have := (List.append_eq_nil_iff.1 h).1
    simp [text, acts, h, this]
  · cases hq : p.qmQuery <;> simp [text, acts, h, hq]

theorem text_sharpFrag : p.text .sharpFrag = p.sharpFrag.getD [] := by
  by_cases h : p.queryFrag = []
  · have := (List.append_eq_nil_iff.1 h).2
    simp [text, acts, h, this]
  · simp [text, acts, h]

theorem text_frag : p.text .frag = (p.sharpFrag.getD []).tail := by
  by_cases h : p.queryFrag = []
  · have := (List.append_eq_nil_iff.1 h).2
    simp [text, acts, h, this]
  · cases hq : p.sharpFrag <;> simp [text, acts, h, hq]

end Parts

/-! Reading. -/

theorem codecCvtAppend_nil {dest : Codec} : codecCvtAppend asserts t dest src [] = .ok [] := by
  unfold codecCvtAppend
  split_ifs <;> cases t <;> rfl

/-- A string component of a reader that succeeded holds the text of its part. -/
theorem str_of_read (h : read asserts src u comps = .ok comps')
    (hc : comps t = some (.str codec s)) :
    ∃ s', comps' t = some (.str codec s') ∧
      codecCvtAppend asserts t codec src ((parts (trim u)).text t) = .ok s' := by
  have hclear : comps.clear t = some (.str codec []) := by
    simp [Comps.clear, hc, ReadComp.clear]
  obtain ⟨s', hs', ha⟩ := runActs_str h hclear
  refine ⟨s', hs', ?_⟩
  rw [Parts.text, ← acts_eq_parts]
  cases hl : lastText t (acts (trim u)) with
  | none =>
    rw [hl] at ha
    rw [Option.getD_none, codecCvtAppend_nil, show s' = [] from ha]
  | some x => rwa [hl] at ha

theorem fail_not_mem (h : runActs asserts src as comps = .ok comps') (e : UriErr) :
    .fail e ∉ as := by
  induction as generalizing comps with
  | nil => simp
  | cons a as ih =>
    obtain ⟨mid, hdid, hrest⟩ := runActs_cons_ok h
    have ha : .fail e ≠ a := by
      rintro rfl
      exact hdid
    simp [ha, ih hrest]

theorem schemeColon_of_read (h : read asserts src u comps = .ok comps') :
    (parts (trim u)).schemeColon.elim True fun m => m.length ≠ 1 := by
  have hf := fail_not_mem h .noSchemeBeforeColon
  rw [acts_eq_parts] at hf
  cases hs : (parts (trim u)).schemeColon with
  | none => trivial
  | some m =>
    intro hm
    simp [Parts.acts, hs, schemeActs, hm] at hf

theorem none_of_read (h : read asserts src u comps = .ok comps') (hc : comps t = none) :
    comps' t = none :=
  runActs_none h (by simp [Comps.clear, hc])

/-! Each part is read at most once. -/

def Act.tag : Act → Option Tag
  | doRead t _ => some t
  | _ => none

theorem lastText_eq_none (h : t ∉ as.filterMap Act.tag) : lastText t as = none := by
  induction as with
  | nil => rfl
  | cons a as ih =>
    cases a with
    | doRead t' s =>
      simp only [List.filterMap_cons, Act.tag, List.mem_cons, not_or] at h
      simp [ih h.2, Ne.symm h.1]
    | assignPort s u => simpa using ih h
    | fail e => simpa using ih h

theorem lastText_of_mem (hn : (as.filterMap Act.tag).Nodup) (h : .doRead t s ∈ as) :
    lastText t as = some s := by
  induction as with
  | nil => simp at h
  | cons a as ih =>
    cases a with
    | assignPort x u => simpa using ih hn (by simpa using h)
    | fail e => simpa using ih hn (by simpa using h)
    | doRead t' x =>
      simp only [List.filterMap_cons, Act.tag, List.nodup_cons] at hn
      obtain he | h := List.mem_cons.1 h
      · obtain ⟨rfl, rfl⟩ := Act.doRead.inj he
        simp [lastText_eq_none hn.1]
      · rw [lastText_cons, ih hn.2 h, Option.some_or]

/-- The tag of the component the act is for. -/
def Act.target : Act → Option Tag
  | doRead t _ => some t
  | assignPort _ _ => some .autoPort
  | fail _ => none

theorem tags_sublist_targets : (as.filterMap Act.tag).Sublist (as.filterMap Act.target) := by
  induction as with
  | nil => exact .slnil
  | cons a as ih =>
    cases a with
    | doRead t s => exact ih.cons_cons t
    | assignPort s u => exact ih.cons .autoPort
    | fail e => exact ih

theorem targets_portActs : ((portActs u m).filterMap Act.target).Sublist [.port, .autoPort] := by
  unfold portActs
  split
  · split <;> simp [Act.target]
  · simp [Act.target]

theorem targets_hostPortActs :
    ((hostPortActs u m).filterMap Act.target).Sublist [.hostPort, .host, .port, .autoPort] := by
  rw [hostPortActs_eq]
  split
  · simp
  · cases hostCut m with
    | none => simp [Act.target]
    | some q => simpa [Act.target] using targets_portActs

theorem targets_userinfoActs :
    ((userinfoActs m).filterMap Act.target).Sublist [.userinfo, .userinfoAt, .user, .password] := by
  unfold userinfoActs
  split <;> simp [Act.target]

theorem targets_fileActs :
    ((fileActs m).filterMap Act.target).Sublist [.file, .fileName, .fileExt, .fileDotExt] := by
  unfold fileActs
  split
  · simp
  · split <;> simp [Act.target]

theorem targets_schemeActs :
    ((schemeActs m).filterMap Act.target).Sublist [.schemeColon, .scheme] := by
  unfold schemeActs
  split <;> simp [Act.target]

theorem targets_authorityActs : ((authorityActs u m).filterMap Act.target).Sublist
    [.ssAuthority, .userinfo, .userinfoAt, .user, .password, .hostPort, .host, .port,
      .autoPort] := by
  unfold authorityActs
  simp only [List.filterMap_cons, Act.target]
  refine List.Sublist.cons_cons _ ?_
  split
  · rw [List.filterMap_append]
    exact targets_userinfoActs.append targets_hostPortActs
  · exact targets_hostPortActs.trans
      (List.sublist_append_right [Tag.userinfo, .userinfoAt, .user, .password] _)

theorem targets_pathActs : ((pathActs m).filterMap Act.target).Sublist
    [.path, .dirPath, .file, .fileName, .fileExt, .fileDotExt] := by
  unfold pathActs
  simp only [List.filterMap_cons, Act.target]
  refine List.Sublist.cons_cons _ ?_
  split
  · simpa only [List.filterMap_cons, Act.target] using targets_fileActs.cons_cons _
  · exact targets_fileActs.cons _

theorem targets_elim {o : Option Bytes} {f : Bytes → List Act} {l : List Tag}
    (h : ∀ m, ((f m).filterMap Act.target).Sublist l) :
    ((o.elim [] f).filterMap Act.target).Sublist l := by
  cases o with
  | none => simp
  | some m => exact h m

theorem targets_ite {q : Prop} [Decidable q] {l : List Tag}
    (h : (as.filterMap Act.target).Sublist l) :
    ((if q then [] else as).filterMap Act.target).Sublist l := by
  split
  · simp
  · exact h

theorem nodup_targets_acts : (p.acts.filterMap Act.target).Nodup := by
  have hsub : (p.acts.filterMap Act.target).Sublist
      ([Tag.schemeColon, .scheme] ++ [Tag.ssAuthority, .userinfo, .userinfoAt, .user, .password,
        .hostPort, .host, .port, .autoPort] ++ [Tag.schemeAuthority] ++
        [Tag.path, .dirPath, .file, .fileName, .fileExt, .fileDotExt] ++
        ([Tag.qmQuery, .query] ++ [Tag.sharpFrag, .frag] ++ [Tag.qmQueryFrag])) := by
    simp only [Parts.acts, List.filterMap_append]
    refine ((((targets_elim fun m => targets_schemeActs).append (targets_elim fun m => ?_)).append
      ?_).append (targets_elim fun m => targets_pathActs)).append (targets_ite ?_)
    · exact targets_authorityActs
    · simp [Act.target]
    · simp only [List.filterMap_append]
      refine ((targets_elim fun m => ?_).append (targets_elim fun m => ?_)).append ?_
      · simp [queryActs, Act.target]
      · simp [fragActs, Act.target]
      · simp [Act.target]
  exact hsub.nodup (by decide)

theorem nodup_tags_acts : (p.acts.filterMap Act.tag).Nodup :=
  tags_sublist_targets.nodup nodup_targets_acts

/-- What is read for a tag is the text of the part. -/
theorem text_of_mem_acts (h : .doRead t s ∈ p.acts) : p.text t = s := by
  rw [Parts.text, lastText_of_mem nodup_tags_acts h, Option.getD_some]

/-! Where the reader gives up. -/

theorem fail_not_mem_portActs {e : UriErr} : .fail e ∉ portActs u m := by
  unfold portActs
  split
  · split <;> simp
  · simp

theorem fail_not_mem_acts {e : UriErr} (hs : p.schemeColon.elim True fun m => m.length ≠ 1)
    (hh : hostCut p.hostPort ≠ none) : .fail e ∉ p.acts := by
  have hscheme : .fail e ∉ p.schemeColon.elim [] schemeActs := by
    cases h : p.schemeColon with
    | none => simp
    | some m =>
      rw [h] at hs
      simp [schemeActs, show m.length ≠ 1 from hs]
  have hinfo : ∀ i, .fail e ∉ userinfoActs i := by
    intro i
    unfold userinfoActs
    split <;> simp
  have hhost : .fail e ∉ hostPortActs p.uri p.hostPort := by
    rw [hostPortActs_eq]
    obtain ⟨q, hq⟩ := Option.ne_none_iff_exists'.1 hh
    split
    · simp
    · simp [hq, fail_not_mem_portActs]
  have hauth : .fail e ∉ p.ssAuthority.elim [] (authorityActs p.uri) := by
    cases h : p.ssAuthority with
    | none => simp
    | some m =>
      simp only [Parts.hostPort, h, Option.elim] at hhost
      simp only [Option.elim, authorityActs]
      cases hf : find ('@' : Byte) (m.drop 2) with
      | none => simpa [hf] using hhost
      | some q => simpa [hf, hinfo] using hhost
  have hfile : ∀ f, .fail e ∉ fileActs f := by
    intro f
    unfold fileActs
    split
    · simp
    · split <;> simp
  have hpath : .fail e ∉ p.path.elim [] pathActs := by
    cases p.path with
    | none => simp
    | some m =>
      simp only [Option.elim, pathActs]
      split <;> simp [hfile]
  have hquery : .fail e ∉ p.qmQuery.elim [] queryActs := by
    cases p.qmQuery <;> simp [queryActs]
  have hfrag : .fail e ∉ p.sharpFrag.elim [] fragActs := by
    cases p.sharpFrag <;> simp [fragActs]
  unfold Parts.acts
  split <;> simp [hscheme, hauth, hpath, hquery, hfrag]

end Jkl.Uri
