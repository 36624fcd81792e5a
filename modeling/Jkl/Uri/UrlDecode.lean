import Jkl.Uri.CodecSpec

/-! Text whose escapes are whole, what it decodes to, and the calls that decode into a buffer. -/
namespace Jkl.Uri

open Cut (find find_eq_some find_eq_none)

variable {p : Bool} {t : Tag} {a b c x y : Byte} {s r v : Bytes}

/-! Escapes. -/

def IsHex (c : Byte) : Prop := c ∈ lit "0123456789ABCDEFabcdef"

instance : Decidable (IsHex c) := inferInstanceAs (Decidable (_ ∈ _))

/-- What a hex digit counts. -/
def hexValue (c : Byte) : ℕ := (lit "0123456789ABCDEF").idxOf (toUpper c)

/-- Every `'%'` is followed by two hex digits. -/
def WellEscaped (s : Bytes) : Prop :=
  ∀ a b, s = a ++ ('%' : Byte) :: b → ∃ x y r, b = x :: y :: r ∧ IsHex x ∧ IsHex y

theorem not_isHex_pct : ¬IsHex '%' := by decide

theorem hexToDec_of_not_isHex : ∀ c : Byte, ¬IsHex c → hexToDec c = 0xff :=
  forall_byte (by decide +kernel)

theorem unhex_of_isHex (ha : IsHex a) (hb : IsHex b) :
    unhex a b = some (UInt8.ofNat (16 * hexValue a + hexValue b)) := by
  have h : ∀ a ∈ lit "0123456789ABCDEFabcdef", ∀ b ∈ lit "0123456789ABCDEFabcdef",
      unhex a b = some (UInt8.ofNat (16 * hexValue a + hexValue b)) := by decide +kernel
  exact h a ha b hb

theorem isHex_of_unhex (h : unhex a b = some x) : IsHex a ∧ IsHex b := by
  obtain ⟨ha, hb⟩ := unhex_eq_some h
  constructor
  · by_contra hn
    exact ha (hexToDec_of_not_isHex a hn)
  · by_contra hn
    exact hb (hexToDec_of_not_isHex b hn)

theorem wellEscaped_nil : WellEscaped [] := fun a b h => by simp at h

theorem wellEscaped_cons (hc : c ≠ '%') : WellEscaped (c :: s) ↔ WellEscaped s := by
  constructor
  · intro h a b hs
    exact h (c :: a) b (by rw [hs]; rfl)
  · intro h a b hs
    cases a with
    | nil => exact absurd (List.cons.inj hs).1 hc
    | cons d a => exact h a b (List.cons.inj hs).2

theorem wellEscaped_pct : WellEscaped (('%' : Byte) :: s) ↔
    ∃ x y r, s = x :: y :: r ∧ IsHex x ∧ IsHex y ∧ WellEscaped r := by
  constructor
  · intro h
    obtain ⟨x, y, r, rfl, hx, hy⟩ := h [] s rfl
    exact ⟨x, y, r, rfl, hx, hy, fun a b hr => h ('%' :: x :: y :: a) b (by rw [hr]; rfl)⟩
  · rintro ⟨x, y, r, rfl, hx, hy, hr⟩
    have hx' : x ≠ '%' := fun e => not_isHex_pct (e ▸ hx)
    have hy' : y ≠ '%' := fun e => not_isHex_pct (e ▸ hy)
    intro a b hs
    cases a with
    | nil => exact ⟨x, y, r, (List.cons.inj hs).2.symm, hx, hy⟩
    | cons d a =>
      have hrest : WellEscaped (x :: y :: r) :=
        (wellEscaped_cons hx').2 ((wellEscaped_cons hy').2 hr)
      exact hrest a b (List.cons.inj hs).2

theorem WellEscaped.hex (h : WellEscaped (('%' : Byte) :: x :: y :: s)) :
    IsHex x ∧ IsHex y ∧ WellEscaped s := by
  obtain ⟨a, b, r, he, ha, hb, hr⟩ := wellEscaped_pct.1 h
  simp only [List.cons.injEq] at he
  obtain ⟨rfl, rfl, rfl⟩ := he
  exact ⟨ha, hb, hr⟩

/-- Text cut where no digit stands is well escaped when both parts are. -/
theorem wellEscaped_append_cons (hc : ¬IsHex c) :
    WellEscaped (s ++ c :: r) ↔ WellEscaped s ∧ WellEscaped (c :: r) := by
  constructor
  · refine fun h => ⟨fun a b hs => ?_, fun a b hr => h (s ++ a) b (by rw [hr, List.append_assoc])⟩
    obtain ⟨x, y, w, hw, hx, hy⟩ := h a (b ++ c :: r) (by rw [hs, List.append_assoc]; rfl)
    rcases b with - | ⟨d, - | ⟨e, b⟩⟩
    · exact absurd ((List.cons.inj hw).1 ▸ hx) hc
    · exact absurd ((List.cons.inj (List.cons.inj hw).2).1 ▸ hy) hc
    · simp only [List.cons_append, List.cons.injEq] at hw
      obtain ⟨rfl, rfl, -⟩ := hw
      exact ⟨_, _, b, rfl, hx, hy⟩
  · rintro ⟨hs, hr⟩ a b h
    obtain ⟨w, rfl, hw⟩ | ⟨w, rfl, hw⟩ := List.append_eq_append_iff.1 h
    · exact hr w b hw
    · cases w with
      | nil =>
        rw [List.nil_append] at hw
        exact hr [] b hw.symm
      | cons d w =>
        obtain ⟨rfl, rfl⟩ := List.cons.inj hw
        obtain ⟨x, y, q, rfl, hx, hy⟩ := hs a w rfl
        exact ⟨x, y, q ++ c :: r, rfl, hx, hy⟩

/-! Decoding. -/

/-- The second text is the first with every escape replaced by the byte it stands for, and every
`'+'` by a blank where it stands for one. -/
inductive Decodes (plusToSpace : Bool) : Bytes → Bytes → Prop where
  | nil : Decodes plusToSpace [] []
  | plus {s v : Bytes} (hp : plusToSpace = true) (h : Decodes plusToSpace s v) :
      Decodes plusToSpace ('+' :: s) (0x20 :: v)
  | hex {s v : Bytes} {a b : Byte} (ha : IsHex a) (hb : IsHex b) (h : Decodes plusToSpace s v) :
      Decodes plusToSpace ('%' :: a :: b :: s) (UInt8.ofNat (16 * hexValue a + hexValue b) :: v)
  | plain {s v : Bytes} {c : Byte} (hc : c ≠ '%') (hp : ¬(plusToSpace = true ∧ c = '+'))
      (h : Decodes plusToSpace s v) : Decodes plusToSpace (c :: s) (c :: v)

theorem unescapeAppend_of_wellEscaped (h : WellEscaped s) :
    ∃ v, unescapeAppend p s = .ok v ∧ Decodes p s v := by
  fun_induction unescapeAppend p s with
  | case1 => exact ⟨[], rfl, .nil⟩
  | case2 c s hc ih =>
    obtain ⟨hp, rfl⟩ := hc
    obtain ⟨v, hv, hd⟩ := ih ((wellEscaped_cons (by decide)).1 h)
    exact ⟨0x20 :: v, by rw [hv, Out.ok_append_ok]; rfl, .plus hp hd⟩
  | case3 a b s w hw _ ih =>
    obtain ⟨hx, hy, hr⟩ := h.hex
    obtain ⟨v, hv, hd⟩ := ih hr
    obtain rfl : UInt8.ofNat (16 * hexValue a + hexValue b) = w :=
      Option.some.inj ((unhex_of_isHex hx hy).symm.trans hw)
    exact ⟨_, by rw [hv, Out.ok_append_ok]; rfl, .hex hx hy hd⟩
  | case4 a b s hn =>
    obtain ⟨hx, hy, -⟩ := h.hex
    rw [unhex_of_isHex hx hy] at hn
    cases hn
  | case5 s hn =>
    obtain ⟨x, y, r, rfl, -⟩ := wellEscaped_pct.1 h
    exact absurd rfl (hn x y r)
  | case6 c s hp hc ih =>
    obtain ⟨v, hv, hd⟩ := ih ((wellEscaped_cons hc).1 h)
    exact ⟨c :: v, by rw [hv, Out.ok_append_ok]; rfl, .plain hc hp hd⟩

theorem wellEscaped_of_unescapeAppend (h : (unescapeAppend p s).stop = none) : WellEscaped s := by
  have hrest {o q : Out} (ho : o.stop = none) (h : (o ++ q).stop = none) : q.stop = none := by
    rwa [(Out.append_of_none ho).2.2] at h
  fun_induction unescapeAppend p s with
  | case1 => exact wellEscaped_nil
  | case2 c s hc ih =>
    rw [hc.2, wellEscaped_cons (by decide)]
    exact ih (hrest rfl h)
  | case3 a b s w hw _ ih =>
    obtain ⟨ha, hb⟩ := isHex_of_unhex hw
    exact wellEscaped_pct.2 ⟨a, b, s, rfl, ha, hb, ih (hrest rfl h)⟩
  | case4 => cases h
  | case5 => cases h
  | case6 c s hp hc ih =>
    rw [wellEscaped_cons hc]
    exact ih (hrest rfl h)

/-- The tags whose text is copied as it is. -/
def copiedTags : List Tag := [.scheme, .schemeColon, .port, .autoPort]

/-- An escape of the text is not whole, and the tag has escapes. -/
def Malformed (t : Tag) (s : Bytes) : Prop := t ∉ copiedTags ∧ ¬WellEscaped s

/-- The complete decoding of a text with the tag. In a query with its fragment a `'+'` is a blank
up to the first `'#'`. -/
def Decoding (t : Tag) (s v : Bytes) : Prop :=
  match t with
  | .scheme | .schemeColon | .port | .autoPort => v = s
  | .query | .qmQuery => Decodes true s v
  | .qmQueryFrag => ∃ q f v₁ v₂, s = q ++ f ∧ ('#' : Byte) ∉ q ∧
      (f = [] ∨ f.head? = some ('#' : Byte)) ∧ Decodes true q v₁ ∧ Decodes false f v₂ ∧
      v = v₁ ++ v₂
  | _ => Decodes false s v

theorem decodeAppend_of_wellFormed (h : ¬Malformed t s) :
    ∃ v, decodeAppend t s = .ok v ∧ Decoding t s v := by
  have hs (ht : t ∉ copiedTags) : WellEscaped s := by
    by_contra hn
    exact h ⟨ht, hn⟩
  cases t with
  | scheme | schemeColon | port | autoPort => exact ⟨s, rfl, rfl⟩
  | qmQueryFrag =>
    have hs := hs (by decide)
    change ∃ v, decodeQmQueryFrag s = _ ∧ _
    unfold decodeQmQueryFrag
    cases hf : find ('#' : Byte) s with
    | none =>
      obtain ⟨v, hv, hd⟩ := @unescapeAppend_of_wellEscaped true s hs
      exact ⟨v, hv, s, [], v, [], (List.append_nil s).symm, find_eq_none.1 hf, .inl rfl, hd, .nil,
        (List.append_nil v).symm⟩
    | some q =>
      obtain ⟨rfl, hn⟩ := find_eq_some.1 hf
      obtain ⟨hq, hr⟩ := (wellEscaped_append_cons (by decide)).1 hs
      obtain ⟨v₁, hv₁, hd₁⟩ := @unescapeAppend_of_wellEscaped true _ hq
      obtain ⟨v₂, hv₂, hd₂⟩ := @unescapeAppend_of_wellEscaped false _ hr
      refine ⟨v₁ ++ v₂, ?_, q.1, '#' :: q.2, v₁, v₂, rfl, hn, .inr rfl, hd₁, hd₂, rfl⟩
      dsimp only
      rw [hv₁, hv₂, Out.ok_append_ok]
  | query | qmQuery => exact unescapeAppend_of_wellEscaped (hs (by decide))
  | _ => exact unescapeAppend_of_wellEscaped (hs (by decide))

theorem decodeAppend_of_malformed (h : Malformed t s) : (decodeAppend t s).stop ≠ none := by
  obtain ⟨ht, hs⟩ := h
  intro hstop
  apply hs
  cases t with
  | scheme | schemeColon | port | autoPort => exact absurd (by decide) ht
  | qmQueryFrag =>
    change (decodeQmQueryFrag s).stop = none at hstop
    unfold decodeQmQueryFrag at hstop
    cases hf : find ('#' : Byte) s with
    | none =>
      rw [hf] at hstop
      exact wellEscaped_of_unescapeAppend hstop
    | some q =>
      rw [hf] at hstop
      dsimp only at hstop
      obtain ⟨rfl, -⟩ := find_eq_some.1 hf
      cases hq : (unescapeAppend true q.1).stop with
      | some e =>
        rw [Out.append_of_stop hq, hq] at hstop
        cases hstop
      | none =>
        rw [(Out.append_of_none hq).2.2] at hstop
        exact (wellEscaped_append_cons (by decide)).2
          ⟨wellEscaped_of_unescapeAppend hq, wellEscaped_of_unescapeAppend hstop⟩
  | query | qmQuery => exact wellEscaped_of_unescapeAppend hstop
  | _ => exact wellEscaped_of_unescapeAppend hstop

/-! The calls. `fill` is what a buffer holds where it has grown. -/

/-- `resize_buf`. -/
def resizeBuf (fill : Byte) (buf : Bytes) (n : ℕ) : Bytes :=
  buf.take n ++ List.replicate (n - buf.length) fill

/-- The bytes of the buffer from `d` on are overwritten by the text. -/
def storeAt (buf : Bytes) (d : ℕ) (text : Bytes) : Bytes :=
  buf.take d ++ text ++ buf.drop (d + text.length)

/-- `url_decode_append` at a pointer. -/
def urlDecodeAppend (t : Tag) (s : Bytes) : Out := decodeAppend t s

/-- `url_decode_append` behind what the buffer holds. -/
def urlDecodeAppendBuf (fill : Byte) (t : Tag) (decoded s : Bytes) : Option Stop × Bytes :=
  -- `buy_buf`
  let buf := resizeBuf fill decoded (decoded.length + s.length)
  let o := urlDecodeAppend t s
  let buf := storeAt buf decoded.length o.text
  match o.stop with
  | some e => (some e, buf)
  | none => (none, resizeBuf fill buf (decoded.length + o.text.length))

def urlDecodeAssign (fill : Byte) (t : Tag) (decoded s : Bytes) : Option Stop × Bytes :=
  let buf := resizeBuf fill decoded s.length
  let o := urlDecodeAppend t s
  let buf := storeAt buf 0 o.text
  match o.stop with
  | some e => (some e, buf)
  | none => (none, resizeBuf fill buf o.text.length)

/-- `url_decode_ret` returns the buffer without a look at what the assignment returned. -/
def urlDecodeRet (fill : Byte) (t : Tag) (s : Bytes) : Except Stop Bytes :=
  .ok (urlDecodeAssign fill t [] s).2

variable {fill : Byte}

theorem resizeBuf_append : resizeBuf fill (s ++ r) s.length = s := by
  rw [resizeBuf, List.take_left, List.length_append, Nat.sub_eq_zero_of_le (Nat.le_add_right _ _),
    List.replicate_zero, List.append_nil]

theorem urlDecodeAppendBuf_ok (h : decodeAppend t s = .ok v) :
    urlDecodeAppendBuf fill t r s = (none, r ++ v) := by
  have htake : (resizeBuf fill r (r.length + s.length)).take r.length = r := by
    rw [resizeBuf, List.take_of_length_le (Nat.le_add_right _ _), List.take_left]
  simp only [urlDecodeAppendBuf, urlDecodeAppend, h, Out.stop_ok, Out.text_ok]
  rw [storeAt, htake, ← List.length_append, resizeBuf_append]

theorem urlDecodeAssign_ok (h : decodeAppend t s = .ok v) :
    urlDecodeAssign fill t r s = (none, v) := by
  simp only [urlDecodeAssign, urlDecodeAppend, h, Out.stop_ok, Out.text_ok]
  rw [storeAt, List.take_zero, List.nil_append, resizeBuf_append]

/-- A malformed text makes every call fail, and any other is decoded by every call. -/
structure Reports (t : Tag) (s : Bytes) : Prop where
  fails : Malformed t s → (urlDecodeAppend t s).stop ≠ none ∧ ∀ fill buf,
    (urlDecodeAppendBuf fill t buf s).1 ≠ none ∧ (urlDecodeAssign fill t buf s).1 ≠ none ∧
      (urlDecodeRet fill t s).isOk = false
  decodes : ¬Malformed t s → ∃ v, Decoding t s v ∧ (urlDecodeAppend t s).Yields v ∧
    ∀ fill buf, urlDecodeAppendBuf fill t buf s = (none, buf ++ v) ∧
      urlDecodeAssign fill t buf s = (none, v) ∧ urlDecodeRet fill t s = .ok v

/-- All but `url_decode_ret` fail on a malformed text. -/
theorem fails_of_malformed (h : Malformed t s) : (urlDecodeAppend t s).stop ≠ none ∧
    ∀ buf, (urlDecodeAppendBuf fill t buf s).1 ≠ none ∧
      (urlDecodeAssign fill t buf s).1 ≠ none := by
  have hstop := decodeAppend_of_malformed h
  obtain ⟨e, he⟩ := Option.ne_none_iff_exists'.1 hstop
  refine ⟨hstop, fun buf => ?_⟩
  simp [urlDecodeAppendBuf, urlDecodeAssign, urlDecodeAppend, he]

/-- The calls do what is asked of them exactly on text that is not malformed. -/
theorem reports_iff (t : Tag) (s : Bytes) : Reports t s ↔ ¬Malformed t s := by
  constructor
  · intro h hm
    have := ((h.fails hm).2 0 []).2.2
    simp [urlDecodeRet, Except.isOk, Except.toBool] at this
  · intro hm
    refine ⟨fun h => absurd h hm, fun _ => ?_⟩
    obtain ⟨v, hv, hd⟩ := decodeAppend_of_wellFormed hm
    refine ⟨v, hd, by rw [urlDecodeAppend, hv]; exact Out.yields_ok, fun fill buf => ?_⟩
    have hassign : ∀ buf, urlDecodeAssign fill t buf s = (none, v) := fun _ =>
      urlDecodeAssign_ok hv
    exact ⟨urlDecodeAppendBuf_ok hv, hassign buf, by rw [urlDecodeRet, hassign]⟩

theorem not_reports_zz : ¬∀ t s, Reports t s := by
  intro h
  have hm : Malformed .user (lit "%zz") := by
    refine ⟨by decide, fun hw => ?_⟩
    obtain ⟨x, y, r, hr, hx, -⟩ := hw [] (lit "zz") rfl
    obtain rfl := (List.cons.inj hr).1
    exact absurd hx (by decide)
  have := (((h .user (lit "%zz")).fails hm).2 0 []).2.2
  simp [urlDecodeRet, Except.isOk, Except.toBool] at this

end Jkl.Uri
