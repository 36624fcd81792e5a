import Jkl.Uri.Codec

/-! What the percent codec guarantees: escaped text reads back, holds no byte its category
escapes, and is at most three times as long. -/
namespace Jkl.Uri

open Cut (find find_append find_eq_none find_eq_some)

variable {k : NoEscCat} {c x : Byte} {s t : Bytes}

theorem unhex_appendHex :
    ∀ c : Byte, unhex (hexDigit (c >>> 4)) (hexDigit (c &&& 0xf)) = some c :=
  forall_byte (by decide +kernel)

/-- A byte that escaping in the category can put out. -/
def Escaped (k : NoEscCat) (x : Byte) : Prop :=
  isNoEsc k x = true ∨ x = '%' ∨ k = .query ∧ x = '+'

instance : Decidable (Escaped k x) := inferInstanceAs (Decidable (_ ∨ _ ∨ _ ∧ _))

theorem escaped_hexDigit : ∀ c : Byte,
    (∀ k, Escaped k (hexDigit (c >>> 4))) ∧ ∀ k, Escaped k (hexDigit (c &&& 0xf)) := by
  have h : ∀ c : Byte,
      (noEscTable (hexDigit (c >>> 4)) = [.query, .frag, .userinfo, .host, .path]) ∧
        noEscTable (hexDigit (c &&& 0xf)) = [.query, .frag, .userinfo, .host, .path] :=
    forall_byte (by decide +kernel)
  intro c
  refine ⟨fun k => .inl ?_, fun k => .inl ?_⟩
  · rw [isNoEsc, (h c).1]
    cases k <;> decide
  · rw [isNoEsc, (h c).2]
    cases k <;> decide

theorem escaped_of_mem_escapeByte (h : x ∈ escapeByte k c) : Escaped k x := by
  unfold escapeByte at h
  split at h
  · next hq => exact .inr (.inr ⟨hq.1, by simpa using h⟩)
  · split at h
    · next hn => exact .inl (by rw [List.mem_singleton.1 h]; exact hn)
    · simp only [appendHex, List.mem_cons, List.not_mem_nil, or_false] at h
      obtain rfl | rfl | rfl := h
      · exact .inr (.inl rfl)
      · exact (escaped_hexDigit c).1 k
      · exact (escaped_hexDigit c).2 k

theorem escaped_of_mem (h : x ∈ escapeAppend k s) : Escaped k x := by
  obtain ⟨c, -, hx⟩ := List.mem_flatMap.1 h
  exact escaped_of_mem_escapeByte hx

theorem not_mem_escapeAppend (h : ¬Escaped k x) : x ∉ escapeAppend k s :=
  fun hx => h (escaped_of_mem hx)

theorem isSpace_of_escaped (h : Escaped k x) : isSpace x = false := by
  have key : ∀ x : Byte, isSpace x = true → noEscTable x = [] ∧ x ≠ '%' ∧ x ≠ '+' :=
    forall_byte (by decide +kernel)
  by_contra hx
  obtain ⟨ht, hp, hq⟩ := key x (by simpa using hx)
  obtain hn | rfl | ⟨-, rfl⟩ := h
  · simp [isNoEsc, ht] at hn
  · exact hp rfl
  · exact hq rfl

@[simp] theorem escapeAppend_nil : escapeAppend k [] = [] := rfl

theorem escapeAppend_cons : escapeAppend k (c :: s) = escapeByte k c ++ escapeAppend k s :=
  rfl

theorem escapeAppend_append :
    escapeAppend k (s ++ t) = escapeAppend k s ++ escapeAppend k t := List.flatMap_append

theorem escapeByte_of_noEsc (h : isNoEsc k c = true) : escapeByte k c = [c] := by
  have hs : noEscTable 0x20 = [] := by decide
  have hc : c ≠ 0x20 := by
    rintro rfl
    simp [isNoEsc, hs] at h
  simp [escapeByte, hc, h]

theorem escapeAppend_of_noEsc (h : ∀ c ∈ s, isNoEsc k c = true) : escapeAppend k s = s := by
  induction s with
  | nil => rfl
  | cons c s ih =>
    rw [escapeAppend_cons, escapeByte_of_noEsc (h c List.mem_cons_self),
      ih fun d hd => h d (List.mem_cons_of_mem c hd), List.singleton_append]

theorem escapeByte_ne_nil : escapeByte k c ≠ [] := by
  unfold escapeByte
  split
  · simp
  · split <;> simp

theorem one_le_length_escapeByte : 1 ≤ (escapeByte k c).length :=
  List.length_pos_iff.2 escapeByte_ne_nil

theorem length_le_escapeAppend : s.length ≤ (escapeAppend k s).length := by
  induction s with
  | nil => simp
  | cons c s ih =>
    have := one_le_length_escapeByte (k := k) (c := c)
    rw [escapeAppend_cons, List.length_append, List.length_cons]
    omega

/-- Outside a query, text that keeps its length has nothing to escape. -/
theorem noEsc_of_length (hq : k ≠ .query) (h : (escapeAppend k s).length ≤ s.length) :
    ∀ x ∈ s, isNoEsc k x = true := by
  have hbyte : ∀ c, (escapeByte k c).length ≤ 1 → isNoEsc k c = true := by
    intro c hl
    unfold escapeByte at hl
    split_ifs at hl with hc hn
    · exact absurd hc.1 hq
    · exact hn
    · simp [appendHex] at hl
  induction s with
  | nil => simp
  | cons c s ih =>
    rw [escapeAppend_cons, List.length_append, List.length_cons] at h
    have h₁ := one_le_length_escapeByte (k := k) (c := c)
    have h₂ := length_le_escapeAppend (k := k) (s := s)
    intro x hx
    obtain rfl | hx := List.mem_cons.1 hx
    · exact hbyte x (by omega)
    · exact ih (by omega) x hx

/-! Reading back. -/

variable {p : Bool}

@[simp] theorem unescapeAppend_nil : unescapeAppend p [] = .ok [] := rfl

theorem unescapeAppend_cons (hc : c ≠ '%') (hp : ¬(p = true ∧ c = '+')) :
    unescapeAppend p (c :: s) = .ok [c] ++ unescapeAppend p s := by
  rcases s with - | ⟨a, - | ⟨b, s⟩⟩ <;> simp [unescapeAppend, hp, hc]

theorem unescapeAppend_plus :
    unescapeAppend true (('+' : Byte) :: s) = .ok [0x20] ++ unescapeAppend true s := by
  rcases s with - | ⟨a, - | ⟨b, s⟩⟩ <;> simp [unescapeAppend]

theorem unescapeAppend_hex {a b v : Byte} (h : unhex a b = some v) :
    unescapeAppend p (('%' : Byte) :: a :: b :: s) = .ok [v] ++ unescapeAppend p s := by
  rw [unescapeAppend, if_neg (by simp), if_pos rfl]
  simp only [h]

theorem unescapeAppend_escapeByte :
    unescapeAppend (k = .query) (escapeByte k c ++ s) =
      .ok [c] ++ unescapeAppend (k = .query) s := by
  unfold escapeByte
  split
  · next h =>
    obtain ⟨hq, rfl⟩ := h
    rw [hq]
    exact unescapeAppend_plus
  · split
    · next hn =>
      -- neither '%' nor, in a query, '+' is ever left alone
      have hpct : c ≠ '%' := by
        rintro rfl
        revert hn
        cases k <;> decide
      refine unescapeAppend_cons hpct ?_
      rintro ⟨hq, rfl⟩
      rw [of_decide_eq_true hq] at hn
      revert hn
      decide
    · exact unescapeAppend_hex (unhex_appendHex c)

theorem unescape_escape : unescapeAppend (k = .query) (escapeAppend k s) = .ok s := by
  induction s with
  | nil => rfl
  | cons c s ih => rw [escapeAppend_cons, unescapeAppend_escapeByte, ih, Out.ok_append_ok]; rfl

/-! No codec takes a byte back. -/

theorem exact_unescapeAppend (s : Bytes) : (unescapeAppend p s).Exact := by
  fun_induction unescapeAppend p s with
  | case1 => exact Out.exact_ok
  | case2 c s h ih => exact Out.exact_ok.append ih
  | case3 a b s' v hv _ ih => exact Out.exact_ok.append ih
  | case4 => exact Out.exact_halt
  | case5 => exact Out.exact_halt
  | case6 c s hp hc ih => exact Out.exact_ok.append ih

theorem unescapeAppend_cons_ok {v : Bytes} (hc : c ≠ '%') (hp : ¬(p = true ∧ c = '+'))
    (h : unescapeAppend p (c :: s) = .ok v) : ∃ w, unescapeAppend p s = .ok w ∧ v = c :: w := by
  rw [unescapeAppend_cons hc hp] at h
  obtain ⟨a, w, ha, hw, rfl⟩ := Out.append_eq_ok Out.exact_ok (exact_unescapeAppend s) h
  exact ⟨w, hw, by rw [← Out.ok_inj.1 ha]; rfl⟩

theorem unhex_eq_some {a b v : Byte} (h : unhex a b = some v) :
    hexToDec a ≠ 0xff ∧ hexToDec b ≠ 0xff := by
  have hor : ∀ x : Byte, 0xff ||| x = 0xff ∧ x ||| 0xff = 0xff := forall_byte (by decide +kernel)
  simp only [unhex] at h
  split_ifs at h with hne
  refine ⟨fun ha => hne ?_, fun hb => hne ?_⟩
  · rw [ha]
    exact (hor _).1
  · rw [hb]
    exact (hor _).2

/-- A byte that no escape uses is still there when its text has been unescaped. -/
theorem mem_of_unescapeAppend {v : Bytes} (h : unescapeAppend p s = .ok v) (hx : x ∈ s)
    (hhex : hexToDec x = 0xff) (hpct : x ≠ '%') (hplus : x ≠ '+') : x ∈ v := by
  fun_induction unescapeAppend p s generalizing v with
  | case1 => simp at hx
  | case2 c s hc ih =>
    have hs : x ∈ s := (List.mem_cons.1 hx).resolve_left fun e => hplus (e.trans hc.2)
    obtain ⟨a, w, -, hw, rfl⟩ := Out.append_eq_ok Out.exact_ok (exact_unescapeAppend s) h
    exact List.mem_append_right a (ih hw hs)
  | case3 a b s w hw _ ih =>
    obtain ⟨ha, hb⟩ := unhex_eq_some hw
    have hs : x ∈ s := by
      obtain rfl | hx := List.mem_cons.1 hx
      · exact absurd rfl hpct
      · obtain rfl | hx := List.mem_cons.1 hx
        · exact absurd hhex ha
        · exact (List.mem_cons.1 hx).resolve_left fun e => hb (e ▸ hhex)
    obtain ⟨d, w, -, hw, rfl⟩ := Out.append_eq_ok Out.exact_ok (exact_unescapeAppend s) h
    exact List.mem_append_right d (ih hw hs)
  | case4 => exact absurd h.symm Out.ok_ne_halt
  | case5 => exact absurd h.symm Out.ok_ne_halt
  | case6 c s hp hc ih =>
    obtain ⟨d, w, hd, hw, rfl⟩ := Out.append_eq_ok Out.exact_ok (exact_unescapeAppend s) h
    obtain rfl | hx := List.mem_cons.1 hx
    · rw [← Out.ok_inj.1 hd]
      simp
    · exact List.mem_append_right d (ih hw hx)

theorem exact_encodeUserinfo : (encodeUserinfo s).Exact := by
  unfold encodeUserinfo
  split
  · exact (Out.exact_ok.append Out.exact_ok).append Out.exact_ok
  · exact Out.exact_ok

theorem exact_encodeAuthority : (encodeAuthority s).Exact := by
  unfold encodeAuthority
  split
  · exact (exact_encodeUserinfo.append Out.exact_ok).append Out.exact_ok
  · exact Out.exact_ok

variable {asserts : Bool}

theorem exact_encodeSsAuthority : (encodeSsAuthority asserts s).Exact := by
  unfold encodeSsAuthority
  split_ifs
  · exact Out.exact_ok
  · exact Out.exact_halt
  · exact Out.exact_ok.append Out.exact_halt
  · exact Out.exact_ok.append exact_encodeAuthority

theorem exact_encodeAppend {t : Tag} : (encodeAppend asserts t s).Exact := by
  cases t with
  | userinfo => exact exact_encodeUserinfo
  | userinfoAt =>
    change (encodeUserinfoAt asserts s).Exact
    unfold encodeUserinfoAt
    split_ifs
    · exact Out.exact_ok
    · exact Out.exact_halt
    · exact exact_encodeUserinfo
  | authority => exact exact_encodeAuthority
  | ssAuthority => exact exact_encodeSsAuthority
  | schemeAuthority =>
    change (encodeSchemeAuthority asserts s).Exact
    unfold encodeSchemeAuthority
    split
    · exact Out.exact_ok.append exact_encodeSsAuthority
    · exact exact_encodeSsAuthority
  | qmQueryFrag =>
    change (encodeQmQueryFrag s).Exact
    unfold encodeQmQueryFrag
    split
    · exact Out.exact_ok.append Out.exact_ok
    · exact Out.exact_ok
  | _ => exact Out.exact_ok

theorem exact_decodeAppend {t : Tag} : (decodeAppend t s).Exact := by
  cases t with
  | scheme | schemeColon | port | autoPort => exact Out.exact_ok
  | qmQueryFrag =>
    change (decodeQmQueryFrag s).Exact
    unfold decodeQmQueryFrag
    split
    · exact (exact_unescapeAppend _).append (exact_unescapeAppend _)
    · exact exact_unescapeAppend _
  | _ => exact exact_unescapeAppend _

theorem exact_codecCvtAppend {t : Tag} {dest src : Codec} :
    (codecCvtAppend asserts t dest src s).Exact := by
  unfold codecCvtAppend
  split_ifs
  · exact exact_decodeAppend
  · exact exact_encodeAppend
  · exact Out.exact_ok

/-! Sizes. -/

theorem length_escapeByte_le : (escapeByte k c).length ≤ 3 := by
  unfold escapeByte
  split
  · simp
  · split <;> simp [appendHex]

theorem length_escapeAppend_le : (escapeAppend k s).length ≤ s.length * 3 := by
  induction s with
  | nil => simp
  | cons c s ih =>
    have := length_escapeByte_le (k := k) (c := c)
    rw [escapeAppend_cons, List.length_append, List.length_cons]
    omega

/-! The percent codec as a whole. -/

/-- What a byte is written as: itself, `'+'`, or `'%'` and two upper-case digits. -/
def WrittenAs (k : NoEscCat) (c : Byte) (w : Bytes) : Prop :=
  isNoEsc k c = true ∧ w = [c] ∨
    k = .query ∧ c = 0x20 ∧ w = [('+' : Byte)] ∨
    ∃ a ∈ lit "0123456789ABCDEF", ∃ b ∈ lit "0123456789ABCDEF", w = ('%' : Byte) :: [a, b]

theorem hexDigit_mem : ∀ c : Byte, hexDigit (c >>> 4) ∈ lit "0123456789ABCDEF" ∧
    hexDigit (c &&& 0xf) ∈ lit "0123456789ABCDEF" :=
  forall_byte (by decide +kernel)

theorem writtenAs_escapeByte : WrittenAs k c (escapeByte k c) := by
  unfold escapeByte
  split_ifs with hq hn
  · exact .inr (.inl ⟨hq.1, hq.2, rfl⟩)
  · exact .inl ⟨hn, rfl⟩
  · obtain ⟨ha, hb⟩ := hexDigit_mem c
    exact .inr (.inr ⟨_, ha, _, hb, rfl⟩)

/-- Escaped text reads back, byte by byte it is what `WrittenAs` allows, and it is at most three
times as long. -/
theorem percent_codec_round_trip (k : NoEscCat) (s : Bytes) :
    unescapeAppend (k = .query) (escapeAppend k s) = .ok s ∧
      (∃ ws : List Bytes, escapeAppend k s = ws.flatten ∧ List.Forall₂ (WrittenAs k) s ws) ∧
      (escapeAppend k s).length ≤ 3 * s.length := by
  refine ⟨unescape_escape, ⟨s.map (escapeByte k), List.flatMap_def .., ?_⟩, ?_⟩
  · rw [List.forall₂_map_right_iff]
    exact List.forall₂_same.2 fun c _ => writtenAs_escapeByte
  · rw [Nat.mul_comm]
    exact length_escapeAppend_le

end Jkl.Uri
