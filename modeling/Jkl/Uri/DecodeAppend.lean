import Jkl.Uri.UrlDecode

/-! Decoders that append to a buffer. They grow it before they decode and give the rest back only
when the decoder succeeds. -/
namespace Jkl.Uri

variable {t : Tag} {fill : Byte} {d : ℕ} {buf s text : Bytes}

/-! The base64 wrapper. -/

/-- What a `cppcodec` decoder does with a text: the bytes it stores, and whether it throws a
`parse_error` behind them; otherwise it returns how many bytes it stored. -/
structure Decoded where
  written : Bytes
  parseError : Bool

/-- `decode_append` behind what the buffer holds; `true` is `cppcodec_err::decode_failed`. -/
def base64DecodeAppendBuf (decodedMaxSize : ℕ → ℕ) (decode : Bytes → Decoded) (fill : Byte)
    (d s : Bytes) : Bool × Bytes :=
  let mn := decodedMaxSize s.length
  -- `buy_buf`
  let buf := resizeBuf fill d (d.length + mn)
  let buf := storeAt buf d.length (decode s).written
  if (decode s).parseError then (true, buf)
  else (false, resizeBuf fill buf (d.length + (decode s).written.length))

/-! Buffers. -/

theorem length_resizeBuf {n : ℕ} : (resizeBuf fill buf n).length = n := by
  rw [resizeBuf, List.length_append, List.length_take, List.length_replicate]
  omega

theorem take_resizeBuf {n : ℕ} : (resizeBuf fill buf (buf.length + n)).take buf.length = buf := by
  rw [resizeBuf, List.take_of_length_le (Nat.le_add_right _ _), List.take_left]

/-- Storing into a buffer never makes it smaller. -/
theorem le_length_storeAt : buf.length ≤ (storeAt buf d text).length := by
  simp only [storeAt, List.length_append, List.length_take, List.length_drop]
  omega

/-- A buffer that has grown for text that was never taken back is not what it was. -/
theorem storeAt_ne {n : ℕ} (hn : n ≠ 0) :
    storeAt (resizeBuf fill buf (buf.length + n)) buf.length text ≠ buf := by
  intro h
  have hle := @le_length_storeAt buf.length (resizeBuf fill buf (buf.length + n)) text
  rw [h, length_resizeBuf] at hle
  omega

/-- The calls keep the buffer when they fail, and otherwise put exactly the decoded bytes behind
it. -/
def KeepsOrAppends (failed : Prop) (buf buf' : Bytes) (decoded : Bytes → Prop) : Prop :=
  (failed → buf' = buf) ∧ (¬failed → ∃ v, decoded v ∧ buf' = buf ++ v)

theorem urlDecodeAppendBuf_keeps_iff :
    KeepsOrAppends ((urlDecodeAppendBuf fill t buf s).1 ≠ none) buf
      (urlDecodeAppendBuf fill t buf s).2 (Decoding t s) ↔ ¬Malformed t s := by
  constructor
  · rintro ⟨hkeep, -⟩ hm
    have hs : s.length ≠ 0 := by
      intro h
      exact hm.2 (List.length_eq_zero_iff.1 h ▸ wellEscaped_nil)
    obtain ⟨e, he⟩ := Option.ne_none_iff_exists'.1 (decodeAppend_of_malformed hm)
    have hfail := ((@fails_of_malformed _ _ fill hm).2 buf).1
    have hbuf := hkeep hfail
    simp only [urlDecodeAppendBuf, urlDecodeAppend, he] at hbuf
    exact storeAt_ne hs hbuf
  · intro hm
    obtain ⟨v, hv, hd⟩ := decodeAppend_of_wellFormed hm
    rw [urlDecodeAppendBuf_ok hv]
    exact ⟨fun h => absurd rfl h, fun _ => ⟨v, hd, rfl⟩⟩

section Base64

variable {decodedMaxSize : ℕ → ℕ} {decode : Bytes → Decoded}

theorem base64DecodeAppendBuf_keeps_iff
    (hle : ∀ s, (decode s).written.length ≤ decodedMaxSize s.length) :
    KeepsOrAppends ((base64DecodeAppendBuf decodedMaxSize decode fill buf s).1 = true) buf
      (base64DecodeAppendBuf decodedMaxSize decode fill buf s).2 (· = (decode s).written) ↔
    (decode s).parseError = false ∨ decodedMaxSize s.length = 0 := by
  unfold base64DecodeAppendBuf
  cases he : (decode s).parseError with
  | false =>
    simp only [Bool.false_eq_true, if_false, true_or, iff_true]
    refine ⟨fun h => h.elim, fun _ => ⟨_, rfl, ?_⟩⟩
    rw [storeAt, take_resizeBuf, ← List.length_append, resizeBuf_append]
  | true =>
    simp only [if_true, Bool.true_eq_false, false_or]
    constructor
    · rintro ⟨hkeep, -⟩
      by_contra hn
      exact storeAt_ne hn (hkeep trivial)
    · intro hn
      have hnil : (decode s).written = [] := by
        have := hle s
        rw [hn] at this
        exact List.length_eq_zero_iff.1 (Nat.le_zero.1 this)
      refine ⟨fun _ => ?_, fun h => absurd trivial h⟩
      have hsame : resizeBuf fill buf (buf.length + 0) = buf := by simp [resizeBuf]
      rw [hn, hnil, hsame]
      simp [storeAt]

end Base64

/-- A failed append leaves the buffer grown, unless it asked for no room; `hle` is that the codec
keeps to the room it asks for. -/
theorem appends_keep_iff (decodedMaxSize : ℕ → ℕ) (decode : Bytes → Decoded)
    (hle : ∀ s, (decode s).written.length ≤ decodedMaxSize s.length) (fill : Byte)
    (buf s : Bytes) :
    (∀ t, KeepsOrAppends ((urlDecodeAppendBuf fill t buf s).1 ≠ none) buf
      (urlDecodeAppendBuf fill t buf s).2 (Decoding t s) ↔ ¬Malformed t s) ∧
    (KeepsOrAppends ((base64DecodeAppendBuf decodedMaxSize decode fill buf s).1 = true) buf
      (base64DecodeAppendBuf decodedMaxSize decode fill buf s).2 (· = (decode s).written) ↔
    (decode s).parseError = false ∨ decodedMaxSize s.length = 0) :=
  ⟨fun _ => urlDecodeAppendBuf_keeps_iff, base64DecodeAppendBuf_keeps_iff hle⟩

/-- A codec that decodes one text only, as `base64_rfc4648` does. -/
def decodeHi (s : Bytes) : Decoded := if s = lit "aGk=" then ⟨lit "hi", false⟩ else ⟨[], true⟩

theorem appends_keep_hi :
    KeepsOrAppends ((base64DecodeAppendBuf (· / 4 * 3) decodeHi 0 (lit "ab") (lit "aGk=")).1 = true)
      (lit "ab") (base64DecodeAppendBuf (· / 4 * 3) decodeHi 0 (lit "ab") (lit "aGk=")).2
      (· = lit "hi") := by
  have hle : ∀ s, (decodeHi s).written.length ≤ s.length / 4 * 3 := by
    intro s
    unfold decodeHi
    split_ifs with h
    · rw [h]
      decide
    · exact Nat.zero_le _
  exact (appends_keep_iff (· / 4 * 3) decodeHi hle 0 (lit "ab") (lit "aGk=")).2.2 (.inl rfl)

/-- Two bytes become five. -/
theorem not_keeps_zz :
    ¬KeepsOrAppends ((urlDecodeAppendBuf 0 .user (lit "ab") (lit "%zz")).1 ≠ none) (lit "ab")
    (urlDecodeAppendBuf 0 .user (lit "ab") (lit "%zz")).2
    (Decoding .user (lit "%zz")) := by
  rintro ⟨hkeep, -⟩
  have h : (urlDecodeAppendBuf 0 .user (lit "ab") (lit "%zz")).1 ≠ none ∧
      (urlDecodeAppendBuf 0 .user (lit "ab") (lit "%zz")).2 ≠ lit "ab" := by
    decide +kernel
  exact h.2 (hkeep h.1)

end Jkl.Uri
