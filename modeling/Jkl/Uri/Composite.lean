import Jkl.Uri.Lossless

/-! A component made of several parts is encoded part by part. Where the encoder takes it apart
at another delimiter than the reader put there, the result differs. -/
namespace Jkl.Uri

open Cut (find find_append find_eq_none find_eq_some)

variable {asserts : Bool} {k : NoEscCat} {t : Tag} {s a b : Bytes} {x : Byte}

/-- A piece of a composite component: a delimiter, or a part with a codec of its own. -/
inductive Piece where
  | delim (d : Bytes)
  | part (t : Tag) (s : Bytes)

namespace Piece

def text : Piece → Bytes
  | delim d => d
  | part _ s => s

/-- Delimiters stay, parts are encoded. -/
def encoded : Piece → Bytes
  | delim d => d
  | part t s => (encodeAppend true t s).text

end Piece

def joined (l : List Piece) : Bytes := l.flatMap Piece.text

def encodedPieces (l : List Piece) : Bytes := l.flatMap Piece.encoded

/-- `user[:password]`. -/
def userinfoPieces (s : Bytes) : List Piece :=
  match find (':' : Byte) s with
  | some (u, p) => [.part .user u, .delim (lit ":"), .part .password p]
  | none => [.part .user s]

/-- `[userinfo@]host_port`. -/
def authorityPieces (s : Bytes) : List Piece :=
  match find ('@' : Byte) s with
  | some (i, h) => userinfoPieces i ++ [.delim (lit "@"), .part .hostPort h]
  | none => [.part .hostPort s]

/-- Nothing, or `userinfo@`. -/
def userinfoAtPieces (s : Bytes) : Option (List Piece) :=
  if s = [] then some []
  else if s.getLast? = some ('@' : Byte) then some (userinfoPieces s.dropLast ++ [.delim (lit "@")])
  else none

/-- Nothing, or `//authority`. -/
def ssAuthorityPieces (s : Bytes) : Option (List Piece) :=
  if s = [] then some []
  else if lit "//" <+: s then some (.delim (lit "//") :: authorityPieces (s.drop 2))
  else none

/-- `[scheme:][//authority]`: there is no scheme in front of a `"//"`. -/
def schemeAuthorityPieces (s : Bytes) : Option (List Piece) :=
  if lit "//" <+: s then ssAuthorityPieces s
  else
    match find (':' : Byte) s with
    | some (a, b) =>
      (ssAuthorityPieces b).map fun l => .part .scheme a :: .delim (lit ":") :: l
    | none => ssAuthorityPieces s

def qmQueryPieces : Bytes → Option (List Piece)
  | [] => some []
  | c :: q => if c = '?' then some [.delim (lit "?"), .part .query q] else none

/-- `[?query][#frag]`. -/
def qmQueryFragPieces (s : Bytes) : Option (List Piece) :=
  match find ('#' : Byte) s with
  | some (q, f) => (qmQueryPieces q).map fun l => l ++ [.delim (lit "#"), .part .frag f]
  | none => qmQueryPieces s

/-- The pieces of a component, when it has the shape of its tag. -/
def pieces (t : Tag) (s : Bytes) : Option (List Piece) :=
  match t with
  | .userinfo => some (userinfoPieces s)
  | .userinfoAt => userinfoAtPieces s
  | .authority => some (authorityPieces s)
  | .ssAuthority => ssAuthorityPieces s
  | .schemeAuthority => schemeAuthorityPieces s
  | .qmQueryFrag => qmQueryFragPieces s
  | _ => some [.part t s]

def compositeTags : List Tag :=
  [.userinfo, .userinfoAt, .authority, .ssAuthority, .schemeAuthority, .qmQueryFrag]

/-! The pieces put the component together again. -/

theorem joined_append {l l' : List Piece} : joined (l ++ l') = joined l ++ joined l' :=
  List.flatMap_append

theorem joined_userinfoPieces : joined (userinfoPieces s) = s := by
  unfold userinfoPieces
  split
  · next u p h => simp [joined, Piece.text, lit, (find_eq_some.1 h).1]
  · simp [joined, Piece.text]

theorem joined_authorityPieces : joined (authorityPieces s) = s := by
  unfold authorityPieces
  split
  · next i h hf =>
    rw [joined_append, joined_userinfoPieces, (find_eq_some.1 hf).1]
    simp [joined, Piece.text, lit]
  · simp [joined, Piece.text]

theorem joined_ssAuthorityPieces {l : List Piece} (h : ssAuthorityPieces s = some l) :
    joined l = s := by
  unfold ssAuthorityPieces at h
  split_ifs at h with hs hp
  · rw [← Option.some.inj h, hs]
    rfl
  · rw [← Option.some.inj h]
    obtain ⟨w, rfl⟩ := hp
    change lit "//" ++ joined (authorityPieces _) = _
    rw [joined_authorityPieces]
    rfl

theorem joined_qmQueryPieces {l : List Piece} (h : qmQueryPieces s = some l) : joined l = s := by
  unfold qmQueryPieces at h
  split at h
  · rw [← Option.some.inj h]
    rfl
  · split_ifs at h with hc
    rw [← Option.some.inj h]
    simp [joined, Piece.text, lit, hc]

theorem joined_pieces {l : List Piece} (h : pieces t s = some l) : joined l = s := by
  unfold pieces at h
  split at h
  · rw [← Option.some.inj h, joined_userinfoPieces]
  · unfold userinfoAtPieces at h
    split_ifs at h with hs hl
    · rw [← Option.some.inj h, hs]
      rfl
    · rw [← Option.some.inj h, joined_append, joined_userinfoPieces]
      simpa [joined, Piece.text, lit] using List.dropLast_append_getLast? _ hl
  · rw [← Option.some.inj h, joined_authorityPieces]
  · exact joined_ssAuthorityPieces h
  · unfold schemeAuthorityPieces at h
    split at h
    · exact joined_ssAuthorityPieces h
    · split at h
      · next a b hf =>
        obtain ⟨l', hl', rfl⟩ := Option.map_eq_some_iff.1 h
        have := joined_ssAuthorityPieces hl'
        simp only [joined, List.flatMap_cons, Piece.text] at this ⊢
        rw [this, (find_eq_some.1 hf).1]
        rfl
      · exact joined_ssAuthorityPieces h
  · unfold qmQueryFragPieces at h
    split at h
    · next q f hf =>
      obtain ⟨l', hl', rfl⟩ := Option.map_eq_some_iff.1 h
      rw [joined_append, joined_qmQueryPieces hl', (find_eq_some.1 hf).1]
      simp [joined, Piece.text, lit]
    · exact joined_qmQueryPieces h
  · rw [← Option.some.inj h]
    simp [joined, Piece.text]

/-! What the encoder makes of each composite. -/

theorem encodedPieces_append {l l' : List Piece} :
    encodedPieces (l ++ l') = encodedPieces l ++ encodedPieces l' := List.flatMap_append

@[simp] theorem encodedPieces_nil : encodedPieces [] = [] := rfl

@[simp] theorem encodedPieces_cons {q : Piece} {l : List Piece} :
    encodedPieces (q :: l) = q.encoded ++ encodedPieces l := List.flatMap_cons

@[simp] theorem encoded_delim : (Piece.delim a).encoded = a := rfl

theorem encodeUserinfo_eq : encodeUserinfo s = .ok (encodedPieces (userinfoPieces s)) := by
  unfold encodeUserinfo userinfoPieces
  cases find (':' : Byte) s <;> simp [Piece.encoded, encodeAppend, lit]

theorem encodeAuthority_eq : encodeAuthority s = .ok (encodedPieces (authorityPieces s)) := by
  unfold encodeAuthority authorityPieces
  cases find ('@' : Byte) s with
  | none => simp [Piece.encoded, encodeAppend]
  | some q => simp [encodedPieces_append, encodeUserinfo_eq, Piece.encoded, encodeAppend, lit]

theorem encodeSsAuthority_eq : encodeSsAuthority true s =
    (ssAuthorityPieces s).elim (.halt .assertion) fun l => .ok (encodedPieces l) := by
  unfold encodeSsAuthority ssAuthorityPieces
  by_cases hs : s = []
  · simp [hs]
  · by_cases hp : lit "//" <+: s
    · have hlen : 2 ≤ s.length := hp.length_le
      replace hlen : ¬s.length < 2 := by omega
      simp [hs, hp, hlen, encodeAuthority_eq]
    · simp [hs, hp]

theorem escapeAppend_cons_of_noEsc (h : isNoEsc k x = true) :
    escapeAppend k (x :: s) = x :: escapeAppend k s := by
  rw [escapeAppend_cons, escapeByte_of_noEsc h, List.singleton_append]

theorem qmQueryPieces_eq (h : s = [] ∨ s.head? = some ('?' : Byte)) :
    ∃ l, qmQueryPieces s = some l ∧ escapeAppend .query s = encodedPieces l := by
  cases s with
  | nil => exact ⟨[], rfl, rfl⟩
  | cons c q =>
    have hc : c = '?' := by simpa using h
    refine ⟨_, by rw [qmQueryPieces, if_pos hc], ?_⟩
    rw [hc, escapeAppend_cons_of_noEsc (by decide)]
    simp [Piece.encoded, encodeAppend, lit]

theorem encodeQmQueryFrag_eq
    (h : s = [] ∨ s.head? = some ('?' : Byte) ∨ s.head? = some ('#' : Byte)) :
    ∃ l, qmQueryFragPieces s = some l ∧ encodeQmQueryFrag s = .ok (encodedPieces l) := by
  unfold qmQueryFragPieces encodeQmQueryFrag
  cases hf : find ('#' : Byte) s with
  | none =>
    have hno : s.head? ≠ some ('#' : Byte) :=
      fun e => find_eq_none.1 hf (List.mem_of_mem_head? e)
    obtain ⟨l, hl, he⟩ := qmQueryPieces_eq (s := s) (by tauto)
    exact ⟨l, hl, by rw [he]⟩
  | some q =>
    obtain ⟨rfl, hno⟩ := find_eq_some.1 (show find _ _ = some (q.1, q.2) from hf)
    have hq : q.1 = [] ∨ q.1.head? = some ('?' : Byte) := by
      cases hq : q.1 with
      | nil => exact .inl rfl
      | cons c w =>
        rw [hq] at h hno
        have hc : c = '?' ∨ c = '#' := by simpa using h
        have hne : c ≠ '#' := fun e => hno (by simp [e])
        exact .inr (by simp [hc.resolve_right hne])
    obtain ⟨l, hl, he⟩ := qmQueryPieces_eq hq
    refine ⟨l ++ [.delim (lit "#"), .part .frag q.2], by simp only [hl, Option.map_some], ?_⟩
    change Out.ok (escapeAppend .query q.1) ++ .ok (escapeAppend .frag (('#' : Byte) :: q.2)) = _
    rw [encodedPieces_append, escapeAppend_cons_of_noEsc (by decide), he]
    simp [Piece.encoded, encodeAppend, lit]

/-! What a reader delivers. -/

/-- A reader can leave the text in a decoded component with the tag. -/
def Deliverable (t : Tag) (s : Bytes) : Prop :=
  ∃ asserts src u comps comps' s₀, comps t = some (.str .urlDecoded s₀) ∧
    read asserts src u comps = .ok comps' ∧ comps' t = some (.str .urlDecoded s)

theorem deliverable_of_read {src : Codec} {u : Bytes}
    (h : (read true src u (strComps .urlDecoded [(t, [])])).toOption.bind (fun c => c t) =
      some (.str .urlDecoded s)) : Deliverable t s := by
  obtain ⟨comps', hr, hc⟩ := Option.bind_eq_some_iff.1 h
  refine ⟨true, src, u, strComps .urlDecoded [(t, [])], comps', [], by simp [strComps], ?_, hc⟩
  cases hk : read true src u (strComps .urlDecoded [(t, [])]) with
  | error e => simp [hk, Except.toOption] at hr
  | ok c =>
    have hc' : c = comps' := by simpa [hk, Except.toOption] using hr
    rw [hc']

theorem Deliverable.decoded (h : Deliverable t s) :
    ∃ u, (parts u).schemeColon.elim True (fun m => m.length ≠ 1) ∧
      (s = (parts u).text t ∨ decodeAppend t ((parts u).text t) = .ok s) := by
  obtain ⟨asserts, src, u, comps, comps', s₀, hc, hr, hs⟩ := h
  obtain ⟨s', hs', hcvt⟩ := str_of_read hr hc
  rw [hs, Option.some.injEq, ReadComp.str.injEq] at hs'
  rw [← hs'.2] at hcvt
  refine ⟨trim u, schemeColon_of_read hr, ?_⟩
  cases src with
  | urlEncoded => exact .inr (by simpa [codecCvtAppend] using hcvt)
  | asIs => exact .inl (by simpa [codecCvtAppend] using hcvt.symm)
  | urlDecoded => exact .inl (by simpa [codecCvtAppend] using hcvt.symm)

theorem unescape_slashes {v : Bytes} (h : unescapeAppend false (lit "//" ++ a) = .ok v) :
    lit "//" <+: v := by
  obtain ⟨w, hw, rfl⟩ := unescapeAppend_cons_ok (by decide) (by simp) h
  obtain ⟨w', -, rfl⟩ := unescapeAppend_cons_ok (by decide) (by simp) hw
  exact ⟨w', rfl⟩

theorem Deliverable.ssAuthority (h : Deliverable .ssAuthority s) :
    s = [] ∨ lit "//" <+: s := by
  obtain ⟨u, -, hs⟩ := h.decoded
  rw [Parts.text_ssAuthority] at hs
  cases ha : (parts u).ssAuthority with
  | none =>
    rw [ha] at hs
    obtain rfl | hs := hs
    · exact .inl rfl
    · exact .inl (Out.ok_inj.1 hs).symm
  | some m =>
    rw [ha, Option.getD_some, ssAuthority_parts ha] at hs
    obtain rfl | hs := hs
    · exact .inr (List.prefix_append _ _)
    · exact .inr (unescape_slashes hs)

theorem Deliverable.schemeAuthority (h : Deliverable .schemeAuthority s) :
    s = [] ∨ lit "//" <+: s ∨ (':' : Byte) ∈ s := by
  obtain ⟨u, -, hs⟩ := h.decoded
  rw [Parts.text_schemeAuthority, Parts.uri] at hs
  cases hc : (parts u).schemeColon with
  | some m =>
    -- the scheme ends in a colon, which stays
    have hm : (':' : Byte) ∈ m := schemeColon_parts hc ▸ by simp
    rw [hc, Option.getD_some] at hs
    obtain rfl | hs := hs
    · exact .inr (.inr (List.mem_append_left _ hm))
    · exact .inr (.inr (mem_of_unescapeAppend hs (List.mem_append_left _ hm) (by decide)
        (by decide) (by decide)))
  | none =>
    rw [hc, Option.getD_none, List.nil_append] at hs
    cases ha : (parts u).ssAuthority with
    | none =>
      rw [ha] at hs
      obtain rfl | hs := hs
      · exact .inl rfl
      · exact .inl (Out.ok_inj.1 hs).symm
    | some m =>
      rw [ha, Option.getD_some, ssAuthority_parts ha] at hs
      obtain rfl | hs := hs
      · exact .inr (.inl (List.prefix_append _ _))
      · exact .inr (.inl (unescape_slashes hs))

theorem Deliverable.qmQueryFrag (h : Deliverable .qmQueryFrag s) :
    s = [] ∨ s.head? = some ('?' : Byte) ∨ s.head? = some ('#' : Byte) := by
  obtain ⟨u, -, hs⟩ := h.decoded
  rw [Parts.text_qmQueryFrag, queryFrag_parts] at hs
  generalize hv : (matchPath (matchSsAuthority (matchSchemeColon u).2).2).2 = v at hs
  have hhead : ∀ c, v.head? = some c → c = '?' ∨ c = '#' := fun c hc => head_matchPath (hv ▸ hc)
  cases v with
  | nil =>
    obtain rfl | hs := hs
    · exact .inl rfl
    · exact .inl (Out.ok_inj.1 hs).symm
  | cons c v =>
    have hc := hhead c rfl
    refine .inr ?_
    obtain rfl | hs := hs
    · simpa using hc
    · -- the first byte is a delimiter, which decoding leaves alone
      obtain ⟨hpct, hplus⟩ : c ≠ '%' ∧ c ≠ '+' := by
        obtain rfl | rfl := hc <;> decide
      have hnp : ∀ p : Bool, ¬(p = true ∧ c = '+') := fun p hp => hplus hp.2
      change decodeQmQueryFrag (c :: v) = _ at hs
      unfold decodeQmQueryFrag at hs
      cases hf : find ('#' : Byte) (c :: v) with
      | none =>
        simp only [hf] at hs
        obtain ⟨w, -, rfl⟩ := unescapeAppend_cons_ok hpct (hnp _) hs
        simpa using hc
      | some q =>
        simp only [hf] at hs
        obtain ⟨x, y, hx, hy, rfl⟩ := Out.append_eq_ok (exact_unescapeAppend _)
          (exact_unescapeAppend _) hs
        obtain ⟨w, -, rfl⟩ := unescapeAppend_cons_ok (by decide) (by simp) hy
        obtain ⟨hcat, -⟩ := find_eq_some.1 (show find _ _ = some (q.1, q.2) from hf)
        cases hq : q.1 with
        | nil =>
          rw [hq] at hx
          simp [← Out.ok_inj.1 hx]
        | cons d z =>
          rw [hq] at hx hcat
          obtain rfl : c = d := (List.cons.inj hcat).1
          obtain ⟨w', -, rfl⟩ := unescapeAppend_cons_ok hpct (hnp _) hx
          simpa using hc

/-! Where the encoder keeps every delimiter. -/

/-- The encoding of the composite is that of its pieces, and no assertion fails. -/
def EncodesAsPieces (t : Tag) (s : Bytes) : Prop :=
  ∃ l, pieces t s = some l ∧ joined l = s ∧ encodeAppend true t s = .ok (encodedPieces l)

/-- Nothing in an authority without a password needs escaping. -/
def Verbatim (s : Bytes) : Prop :=
  match find ('@' : Byte) s with
  | some (i, h) => (∀ x ∈ i, isNoEsc .userinfo x = true) ∧ ∀ x ∈ h, isNoEsc .host x = true
  | none => ∀ x ∈ s, isNoEsc .host x = true

/-- When `encode_append` of the tag keeps the delimiters. The `'@'` of a userinfo is dropped. A
prefix without a scheme is cut at its first colon, which is harmless only if that ends it. -/
def KeepsDelimiters (t : Tag) (s : Bytes) : Prop :=
  match t with
  | .userinfoAt => s = []
  | .schemeAuthority =>
    if lit "//" <+: s then
      (':' : Byte) ∉ s ∨ find (':' : Byte) s = some (s.dropLast, []) ∧ Verbatim (s.drop 2)
    else ∀ a b, find (':' : Byte) s = some (a, b) → b = [] ∨ lit "//" <+: b
  | _ => True

theorem encodesAsPieces_of {l : List Piece} (hl : pieces t s = some l)
    (he : encodeAppend true t s = .ok (encodedPieces l)) : EncodesAsPieces t s :=
  ⟨l, hl, joined_pieces hl, he⟩

theorem ssAuthorityPieces_of (h : s = [] ∨ lit "//" <+: s) :
    ∃ l, ssAuthorityPieces s = some l := by
  unfold ssAuthorityPieces
  by_cases hs : s = []
  · exact ⟨[], by simp [hs]⟩
  · exact ⟨.delim (lit "//") :: authorityPieces (s.drop 2), by simp [hs, h.resolve_left hs]⟩

theorem encodesAsPieces_userinfoAt : EncodesAsPieces .userinfoAt s ↔ s = [] := by
  refine ⟨?_, fun h => encodesAsPieces_of (l := []) (by rw [h]; rfl) (by rw [h]; rfl)⟩
  rintro ⟨l, hl, -, he⟩
  by_contra hs
  change userinfoAtPieces s = some l at hl
  change encodeUserinfoAt true s = _ at he
  unfold userinfoAtPieces at hl
  unfold encodeUserinfoAt at he
  split_ifs at hl with h
  rw [if_neg hs, if_neg (by simp [h]), encodeUserinfo_eq, Out.ok_inj, ← Option.some.inj hl,
    encodedPieces_append] at he
  -- the encoder leaves out the '@'
  have := congrArg List.length he
  simp [lit] at this

theorem verbatim_iff (h : ∀ i b, find ('@' : Byte) s = some (i, b) → (':' : Byte) ∉ i) :
    encodedPieces (authorityPieces s) = s ↔ Verbatim s := by
  unfold authorityPieces Verbatim
  cases hf : find ('@' : Byte) s with
  | none =>
    have he : encodedPieces [.part .hostPort s] = escapeAppend .host s := by
      simp [Piece.encoded, encodeAppend]
    simp only [he]
    exact ⟨fun e => noEsc_of_length (by decide) (congrArg List.length e).le, escapeAppend_of_noEsc⟩
  | some q =>
    have hs := (find_eq_some.1 (show find _ _ = some (q.1, q.2) from hf)).1
    have he : encodedPieces (userinfoPieces q.1 ++ [.delim (lit "@"), .part .hostPort q.2]) =
        escapeAppend .userinfo q.1 ++ ('@' : Byte) :: escapeAppend .host q.2 := by
      have hi := find_eq_none.2 (h q.1 q.2 hf)
      simp [userinfoPieces, hi, Piece.encoded, encodeAppend, lit]
    simp only [he]
    constructor
    · intro e
      have hlen := congrArg List.length (e.trans hs)
      simp only [List.length_append, List.length_cons] at hlen
      have h₁ := length_le_escapeAppend (k := .userinfo) (s := q.1)
      have h₂ := length_le_escapeAppend (k := .host) (s := q.2)
      exact ⟨noEsc_of_length (by decide) (by omega), noEsc_of_length (by decide) (by omega)⟩
    · rintro ⟨h₁, h₂⟩
      rw [escapeAppend_of_noEsc h₁, escapeAppend_of_noEsc h₂]
      exact hs.symm

/-- No part of an authority is written with a slash. -/
theorem slash_not_mem_authority : ('/' : Byte) ∉ encodedPieces (authorityPieces s) := by
  have hu : ∀ s, ('/' : Byte) ∉ escapeAppend .userinfo s :=
    fun s => not_mem_escapeAppend (by decide)
  have hh : ∀ s, ('/' : Byte) ∉ escapeAppend .host s := fun s => not_mem_escapeAppend (by decide)
  have hi : ∀ s, ('/' : Byte) ∉ encodedPieces (userinfoPieces s) := by
    intro s
    unfold userinfoPieces
    cases find (':' : Byte) s <;> simp [Piece.encoded, encodeAppend, lit, hu]
  unfold authorityPieces
  cases find ('@' : Byte) s <;>
    simp [encodedPieces_append, Piece.encoded, encodeAppend, lit, hi, hh]

theorem encodesAsPieces_network (hp : lit "//" <+: s) :
    EncodesAsPieces .schemeAuthority s ↔ KeepsDelimiters .schemeAuthority s := by
  obtain ⟨w, rfl⟩ := hp
  have hpieces : pieces .schemeAuthority (lit "//" ++ w) =
      some (.delim (lit "//") :: authorityPieces w) := by
    simp [pieces, schemeAuthorityPieces, ssAuthorityPieces, lit]
  have hss : encodeSsAuthority true (lit "//" ++ w) =
      .ok (lit "//" ++ encodedPieces (authorityPieces w)) := by
    rw [encodeSsAuthority_eq]
    simp [ssAuthorityPieces, lit]
  have hprop : EncodesAsPieces .schemeAuthority (lit "//" ++ w) ↔
      encodeSchemeAuthority true (lit "//" ++ w) =
        .ok (lit "//" ++ encodedPieces (authorityPieces w)) := by
    refine ⟨?_, fun h => encodesAsPieces_of hpieces h⟩
    rintro ⟨l, hl, -, he⟩
    rw [hpieces, Option.some.injEq] at hl
    rw [← hl] at he
    exact he
  rw [hprop]
  simp only [KeepsDelimiters, List.prefix_append, if_true]
  unfold encodeSchemeAuthority
  cases hf : find (':' : Byte) (lit "//" ++ w) with
  | none => simp only [hss, find_eq_none.1 hf, not_false_eq_true, true_or]
  | some q =>
    obtain ⟨hs, hno⟩ := find_eq_some.1 (show find _ _ = some (q.1, q.2) from hf)
    have hmem : (':' : Byte) ∈ lit "//" ++ w := hs ▸ by simp
    have hq : q.1 ≠ [] := by
      intro e
      rw [e] at hs
      exact absurd (List.cons.inj hs).1 (by decide)
    simp only [hmem, not_true, false_or, Option.some.injEq]
    change .ok (q.1 ++ [(':' : Byte)]) ++ encodeSsAuthority true q.2 = _ ↔ _
    by_cases hb : q.2 = []
    · -- the colon ends the text, and everything before it is copied
      rw [hb] at hs ⊢
      have hdrop : (lit "//" ++ w).dropLast = q.1 := by rw [hs, List.dropLast_concat]
      have hw : ∀ i b, find ('@' : Byte) w = some (i, b) → (':' : Byte) ∉ i := by
        intro i b hi hc
        obtain ⟨rfl, -⟩ := find_eq_some.1 hi
        refine hno ?_
        have hpre : lit "//" ++ i <+: q.1 := by
          refine @List.prefix_of_prefix_length_le _ _ _ (q.1 ++ [(':' : Byte)]) ?_
            (List.prefix_append _ _) ?_
          · rw [← hs, ← List.append_assoc]
            exact List.prefix_append _ _
          · have := congrArg List.length hs
            simp only [List.length_append, List.length_cons, List.length_nil] at this ⊢
            omega
        exact hpre.subset (List.mem_append_right _ hc)
      have hself : encodedPieces (authorityPieces w) = w ↔ Verbatim ((lit "//" ++ w).drop 2) :=
        verbatim_iff hw
      have hq' : q = ((lit "//" ++ w).dropLast, []) := by rw [hdrop, ← hb]
      rw [show encodeSsAuthority true [] = .ok [] from rfl, Out.append_ok_nil, ← hs, Out.ok_inj,
        List.append_cancel_left_eq, eq_comm, hself]
      exact ⟨fun hv => ⟨hq', hv⟩, fun hv => hv.2⟩
    · refine iff_of_false (fun he => ?_) fun h => hb (congrArg Prod.snd h.1)
      rw [encodeSsAuthority_eq] at he
      unfold ssAuthorityPieces at he
      by_cases hp : lit "//" <+: q.2
      · -- a second "//" is copied, but no slash of an authority would be
        simp only [hb, hp, if_false, if_true, Option.elim, Out.ok_append_ok, Out.ok_inj] at he
        have hdrop := congrArg (List.drop 2) he
        have hlen : 2 ≤ (q.1 ++ [(':' : Byte)]).length := by
          have := List.length_pos_iff.2 hq
          simp only [List.length_append, List.length_cons, List.length_nil]
          omega
        rw [List.drop_append_of_le_length hlen] at hdrop
        refine slash_not_mem_authority (s := w) ?_
        rw [show encodedPieces (authorityPieces w) = _ from hdrop.symm]
        exact List.mem_append_right _ List.mem_cons_self
      · simp only [hb, hp, if_false, Option.elim] at he
        have := congrArg Out.stop he
        rw [(Out.append_of_none (o := .ok _) rfl).2.2] at this
        simp at this

theorem encodesAsPieces_schemeAuthority (h : s = [] ∨ lit "//" <+: s ∨ (':' : Byte) ∈ s) :
    EncodesAsPieces .schemeAuthority s ↔ KeepsDelimiters .schemeAuthority s := by
  by_cases hp : lit "//" <+: s
  · exact encodesAsPieces_network hp
  · simp only [KeepsDelimiters, hp, if_false]
    cases hf : find (':' : Byte) s with
    | none =>
      obtain rfl : s = [] := by
        have := find_eq_none.1 hf
        tauto
      exact iff_of_true (encodesAsPieces_of (l := []) rfl rfl) (by simp)
    | some q =>
      have hpieces : pieces .schemeAuthority s =
          (ssAuthorityPieces q.2).map fun l => .part .scheme q.1 :: .delim (lit ":") :: l := by
        simp [pieces, schemeAuthorityPieces, hp, hf]
      have henc : encodeAppend true .schemeAuthority s =
          .ok (q.1 ++ [(':' : Byte)]) ++ encodeSsAuthority true q.2 := by
        simp [encodeAppend, encodeSchemeAuthority, hf]
      have hshape : (∀ a b, some q = some (a, b) → b = [] ∨ lit "//" <+: b) ↔
          (q.2 = [] ∨ lit "//" <+: q.2) :=
        ⟨fun h => h _ _ rfl, fun h a b e => by cases e; exact h⟩
      rw [hshape]
      constructor
      · rintro ⟨l, hl, -, -⟩
        rw [hpieces] at hl
        obtain ⟨l', hl', -⟩ := Option.map_eq_some_iff.1 hl
        unfold ssAuthorityPieces at hl'
        split_ifs at hl' with h₁ h₂
        · exact .inl h₁
        · exact .inr h₂
      · intro hq
        obtain ⟨l, hl⟩ := ssAuthorityPieces_of hq
        refine encodesAsPieces_of (by rw [hpieces, hl]; rfl) ?_
        rw [henc, encodeSsAuthority_eq, hl]
        simp [Piece.encoded, encodeAppend, lit]

/-- Exactly when a delivered composite is encoded like its parts. -/
theorem encode_composite (t : Tag) (s : Bytes) (ht : t ∈ compositeTags) (hs : Deliverable t s) :
    EncodesAsPieces t s ↔ KeepsDelimiters t s := by
  simp only [compositeTags, List.mem_cons, List.not_mem_nil, or_false] at ht
  obtain rfl | rfl | rfl | rfl | rfl | rfl := ht
  · exact iff_of_true (encodesAsPieces_of rfl encodeUserinfo_eq) trivial
  · exact encodesAsPieces_userinfoAt
  · exact iff_of_true (encodesAsPieces_of rfl encodeAuthority_eq) trivial
  · refine iff_of_true ?_ trivial
    obtain ⟨l, hl⟩ := ssAuthorityPieces_of hs.ssAuthority
    refine encodesAsPieces_of hl ?_
    change encodeSsAuthority true s = _
    rw [encodeSsAuthority_eq, hl]
    rfl
  · exact encodesAsPieces_schemeAuthority hs.schemeAuthority
  · refine iff_of_true ?_ trivial
    obtain ⟨l, hl, he⟩ := encodeQmQueryFrag_eq hs.qmQueryFrag
    exact encodesAsPieces_of hl he

/-- A prefix without a scheme but with a port is cut at the port, and the `'@'` is dropped. -/
theorem not_encode_composite :
    (Deliverable .schemeAuthority (lit "//host:80") ∧
      ¬EncodesAsPieces .schemeAuthority (lit "//host:80")) ∧
    Deliverable .userinfoAt (lit "me@") ∧ ¬EncodesAsPieces .userinfoAt (lit "me@") := by
  refine ⟨⟨?_, ?_⟩, ?_, ?_⟩
  · exact @deliverable_of_read _ _ .urlEncoded (lit "//host:80/p") (by decide +kernel)
  · rintro ⟨l, -, -, h⟩
    exact absurd ((congrArg Out.stop h).trans Out.stop_ok) (by decide +kernel)
  · exact @deliverable_of_read _ _ .urlEncoded (lit "//me@h/") (by decide +kernel)
  · exact fun h => absurd (encodesAsPieces_userinfoAt.1 h) (by decide)

theorem encode_composite_http : EncodesAsPieces .schemeAuthority (lit "http://me:pw@h:80") := by
  refine (encode_composite .schemeAuthority _ (by decide) ?_).2 ?_
  · exact @deliverable_of_read _ _ .urlEncoded (lit "http://me:pw@h:80/p")
      (by decide +kernel)
  · intro a b hab
    exact .inr (by cases hab; decide)

end Jkl.Uri
