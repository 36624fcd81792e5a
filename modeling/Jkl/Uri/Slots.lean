import Jkl.Uri.CodecSpec

/-! What is stored step by step against what is reserved for it. Each step says of its contents what
they leave of the reserve, and carries the proof that it is what the stored bytes leave. -/
namespace Jkl.Uri

open Cut (find find_eq_some)

/-- One step of a writer: the bytes reserved for it, those its contents need beyond them and those
they leave, whether its last byte is taken back, and whether it ends in an error. -/
structure Slot where
  reserve : ℕ
  excess : ℕ
  spare : ℕ
  back : ℕ
  stops : Bool
  out : Out
  peak_add : out.peak + spare = reserve + excess
  length_add : out.text.length + back = out.peak
  isSome_stop : out.stop.isSome = stops

namespace Out

variable {s : Bytes} {o p : Out}

@[simp] theorem text_ok_append : (ok s ++ o).text = s ++ o.text := (append_of_none stop_ok).1

@[simp] theorem stop_ok_append : (ok s ++ o).stop = o.stop := (append_of_none stop_ok).2.2

@[simp] theorem peak_ok_append : (ok s ++ o).peak = s.length + o.peak := by
  rw [(append_of_none stop_ok).2.1, peak_ok, text_ok]
  omega

end Out

namespace Slot

def written : List Slot → Out
  | [] => .ok []
  | x :: l => x.out ++ written l

def reserved : List Slot → ℕ
  | [] => 0
  | x :: l => x.reserve + reserved l

/-- What the slots need beyond their reserves, up to the one that stops. -/
def excesses : List Slot → ℕ
  | [] => 0
  | x :: l => x.excess + if x.stops then 0 else excesses l

/-- What the slots leave of their reserves. Those behind the one that stops leave everything, and a
byte that is taken back makes room for one behind it. -/
def spares : List Slot → ℕ
  | [] => 0
  | x :: l => x.spare +
      if x.stops then reserved l
      else spares l + min x.back (reserved l + excesses l - spares l)

variable {x : Slot} {l m : List Slot} {s : Bytes} {n : ℕ} {e : Stop}

@[simp] theorem written_nil : written [] = .ok [] := rfl

@[simp] theorem written_cons : written (x :: l) = x.out ++ written l := rfl

@[simp] theorem reserved_nil : reserved [] = 0 := rfl

@[simp] theorem reserved_cons : reserved (x :: l) = x.reserve + reserved l := rfl

@[simp] theorem written_append : written (l ++ m) = written l ++ written m := by
  induction l with
  | nil => simp
  | cons x l ih => simp [ih, Out.append_assoc]

@[simp] theorem reserved_append : reserved (l ++ m) = reserved l + reserved m := by
  induction l with
  | nil => simp
  | cons x l ih => rw [List.cons_append, reserved_cons, reserved_cons, ih, Nat.add_assoc]

/-- What is stored and what is left make up what is reserved and what exceeds it. -/
theorem peak_written_add (l : List Slot) :
    (written l).peak + spares l = reserved l + excesses l := by
  induction l with
  | nil => rfl
  | cons x l ih =>
    have hpeak := x.peak_add
    have hlen := x.length_add
    rw [written_cons, reserved_cons]
    cases hs : x.stops with
    | true =>
      obtain ⟨e, he⟩ := Option.isSome_iff_exists.1 (x.isSome_stop.trans hs)
      rw [Out.append_of_stop he]
      simp only [spares, excesses, hs, if_true]
      omega
    | false =>
      have hnone : x.out.stop = none := by
        simpa [hs] using x.isSome_stop
      rw [(Out.append_of_none hnone).2.1]
      simp only [spares, excesses, hs, Bool.false_eq_true, if_false]
      omega

theorem peak_le_iff (l : List Slot) : (written l).peak ≤ reserved l ↔ excesses l ≤ spares l := by
  have := peak_written_add l
  omega

theorem excesses_eq_zero (h : ∀ x ∈ l, x.excess = 0) : excesses l = 0 := by
  induction l with
  | nil => rfl
  | cons x l ih =>
    rw [excesses, h x List.mem_cons_self, ih fun y hy => h y (List.mem_cons_of_mem x hy)]
    split_ifs <;> rfl

/-- Nothing is stored behind the reserves where nothing exceeds its own. -/
theorem peak_written_le (h : ∀ x ∈ l, x.excess = 0) : (written l).peak ≤ reserved l := by
  rw [peak_le_iff, excesses_eq_zero h]
  exact Nat.zero_le _

/-! The kinds of slots. -/

/-- A text in a room of `n` bytes. -/
def room (n : ℕ) (s : Bytes) : Slot where
  reserve := n
  excess := s.length - n
  spare := n - s.length
  back := 0
  stops := false
  out := .ok s
  peak_add := by
    rw [Out.peak_ok]
    omega
  length_add := rfl
  isSome_stop := rfl

/-- Room that is left as a whole, before an error. -/
def failed (n : ℕ) (e : Stop) : Slot where
  reserve := n
  excess := 0
  spare := n
  back := 0
  stops := true
  out := .halt e
  peak_add := Nat.add_comm _ _
  length_add := rfl
  isSome_stop := rfl

/-- A byte that is stored and then taken back. -/
def takenBack (c : Byte) : Slot where
  reserve := 1
  excess := 0
  spare := 0
  back := 1
  stops := false
  out := (Out.ok [c]).back
  peak_add := rfl
  length_add := rfl
  isSome_stop := rfl

/-- The bytes that escaping writes as one byte. -/
def plain (k : NoEscCat) (s : Bytes) : ℕ :=
  s.countP fun c => k = .query ∧ c = 0x20 ∨ isNoEsc k c = true

theorem length_escapeAppend_add (k : NoEscCat) (s : Bytes) :
    (escapeAppend k s).length + plain k s * 2 = s.length * 3 := by
  induction s with
  | nil => rfl
  | cons c s ih =>
    have hbyte : (escapeByte k c).length +
        (if k = .query ∧ c = 0x20 ∨ isNoEsc k c = true then 2 else 0) = 3 := by
      unfold escapeByte
      split_ifs with hq hn <;> simp_all [appendHex]
    have hcount : plain k (c :: s) = plain k s +
        if k = .query ∧ c = 0x20 ∨ isNoEsc k c = true then 1 else 0 := by
      simp [plain, List.countP_cons]
    rw [escapeAppend_cons, List.length_append, List.length_cons, hcount]
    split_ifs at hbyte ⊢ <;> omega

/-- A text that is escaped, three bytes reserved for each of its bytes. -/
def escaped (k : NoEscCat) (s : Bytes) : Slot where
  reserve := s.length * 3
  excess := 0
  spare := plain k s * 2
  back := 0
  stops := false
  out := .ok (escapeAppend k s)
  peak_add := length_escapeAppend_add k s
  length_add := rfl
  isSome_stop := rfl

/-- The whole escapes of a text up to the first one that is not, and the bytes from that on. -/
def escapes : Bytes → ℕ × ℕ
  | [] => (0, 0)
  | c :: s =>
    if c = '%' then
      match s with
      | a :: b :: s' =>
        if (unhex a b).isSome then ((escapes s').1 + 1, (escapes s').2) else (0, s'.length + 3)
      | _ => (0, s.length + 1)
    else escapes s

theorem escapes_cons {c : Byte} (hc : c ≠ '%') : escapes (c :: s) = escapes s := by
  rcases s with - | ⟨a, - | ⟨b, s⟩⟩ <;> simp [escapes, hc]

theorem unescapeAppend_add (p : Bool) (s : Bytes) :
    (unescapeAppend p s).peak + ((escapes s).1 * 2 + (escapes s).2) = s.length ∧
      (unescapeAppend p s).stop.isSome = decide ((escapes s).2 ≠ 0) := by
  fun_induction unescapeAppend p s with
  | case1 => exact ⟨rfl, rfl⟩
  | case2 c s h ih =>
    have hc : c ≠ '%' := by
      rw [h.2]
      decide
    rw [escapes_cons hc]
    simp only [Out.peak_ok_append, Out.stop_ok_append, List.length_cons, List.length_nil]
    exact ⟨by omega, ih.2⟩
  | case3 a b s v hv _ ih =>
    simp only [escapes, hv, Option.isSome_some, if_true, Out.peak_ok_append, Out.stop_ok_append,
      List.length_cons, List.length_nil]
    exact ⟨by omega, ih.2⟩
  | case4 a b s hv => simp [escapes, hv]
  | case5 s hs =>
    rcases s with - | ⟨a, - | ⟨b, s⟩⟩
    · simp [escapes]
    · simp [escapes]
    · exact absurd rfl (hs a b s)
  | case6 c s h hc ih =>
    rw [escapes_cons hc]
    simp only [Out.peak_ok_append, Out.stop_ok_append, List.length_cons, List.length_nil]
    exact ⟨by omega, ih.2⟩

/-- A text that is unescaped. -/
def unescaped (p : Bool) (s : Bytes) : Slot where
  reserve := s.length
  excess := 0
  spare := (escapes s).1 * 2 + (escapes s).2
  back := 0
  stops := (escapes s).2 ≠ 0
  out := unescapeAppend p s
  peak_add := (unescapeAppend_add p s).1
  length_add := (exact_unescapeAppend s).symm
  isSome_stop := (unescapeAppend_add p s).2

/-- A byte of its three is stored: a delimiter that escaping leaves as it is. -/
def kept (s : Bytes) : Slot := room (s.length * 3) s

end Slot

/-! The conversions. -/

section Conversions

open Slot

def encodeUserinfoSlots (s : Bytes) : List Slot :=
  match find (':' : Byte) s with
  | some (u, p) => [escaped .userinfo u, kept [':'], escaped .userinfo p]
  | none => [escaped .userinfo s]

/-- The last byte, which is the `'@'`, is left out. -/
def encodeUserinfoAtSlots (asserts : Bool) (s : Bytes) : List Slot :=
  if s = [] then []
  else if asserts ∧ s.getLast? ≠ some ('@' : Byte) then [failed (s.length * 3) .assertion]
  else encodeUserinfoSlots s.dropLast ++ [room 3 []]

def encodeAuthoritySlots (s : Bytes) : List Slot :=
  match find ('@' : Byte) s with
  | some (i, h) => encodeUserinfoSlots i ++ [kept ['@'], escaped .host h]
  | none => [escaped .host s]

def encodeSsAuthoritySlots (asserts : Bool) (s : Bytes) : List Slot :=
  if s = [] then []
  else if asserts ∧ ¬lit "//" <+: s then [failed (s.length * 3) .assertion]
  else if s.length < 2 then [room 3 (lit "//"), failed 0 .wild]
  else kept (lit "//") :: encodeAuthoritySlots (s.drop 2)

def encodeSchemeAuthoritySlots (asserts : Bool) (s : Bytes) : List Slot :=
  match find (':' : Byte) s with
  | some (a, b) => kept (a ++ [(':' : Byte)]) :: encodeSsAuthoritySlots asserts b
  | none => encodeSsAuthoritySlots asserts s

def encodeQmQueryFragSlots (s : Bytes) : List Slot :=
  match find ('#' : Byte) s with
  | some (q, f) => [escaped .query q, escaped .frag ('#' :: f)]
  | none => [escaped .query s]

def encodeSlots (asserts : Bool) (t : Tag) (s : Bytes) : List Slot :=
  match t with
  | .scheme | .schemeColon | .port | .autoPort => [room s.length s]
  | .user | .password => [escaped .userinfo s]
  | .host | .hostPort => [escaped .host s]
  | .path | .dirPath | .file | .fileName | .fileExt | .fileDotExt => [escaped .path s]
  | .query | .qmQuery => [escaped .query s]
  | .frag | .sharpFrag => [escaped .frag s]
  | .userinfo => encodeUserinfoSlots s
  | .userinfoAt => encodeUserinfoAtSlots asserts s
  | .authority => encodeAuthoritySlots s
  | .ssAuthority => encodeSsAuthoritySlots asserts s
  | .schemeAuthority => encodeSchemeAuthoritySlots asserts s
  | .qmQueryFrag => encodeQmQueryFragSlots s

def decodeSlots (t : Tag) (s : Bytes) : List Slot :=
  match t with
  | .scheme | .schemeColon | .port | .autoPort => [room s.length s]
  | .query | .qmQuery => [unescaped true s]
  | .qmQueryFrag =>
    match find ('#' : Byte) s with
    | some (q, f) => [unescaped true q, unescaped false ('#' :: f)]
    | none => [unescaped true s]
  | _ => [unescaped false s]

/-- A text between two codecs. -/
def cvtSlots (asserts : Bool) (t : Tag) (dest src : Codec) (s : Bytes) : List Slot :=
  if dest = .urlDecoded ∧ src = .urlEncoded then decodeSlots t s
  else if dest = .urlEncoded ∧ src = .urlDecoded then encodeSlots asserts t s
  else [room s.length s]

/-- The slots of `o`, which has `n` bytes reserved, none of which exceeds its own. -/
structure Covers (l : List Slot) (o : Out) (n : ℕ) : Prop where
  written : Slot.written l = o
  reserved : Slot.reserved l = n
  excess : ∀ x ∈ l, x.excess = 0

variable {asserts : Bool} {t : Tag} {dest src : Codec} {s : Bytes} {k : NoEscCat} {p : Bool}
  {l m : List Slot} {o q : Out} {i j : ℕ}

theorem Covers.nil : Covers [] (.ok []) 0 := ⟨rfl, rfl, by simp⟩

theorem Covers.append (hl : Covers l o i) (hm : Covers m q j) :
    Covers (l ++ m) (o ++ q) (i + j) := by
  constructor
  · rw [written_append, hl.written, hm.written]
  · rw [reserved_append, hl.reserved, hm.reserved]
  · intro x hx
    exact (List.mem_append.1 hx).elim (hl.excess x) (hm.excess x)

theorem covers_room {n : ℕ} (h : s.length ≤ n) : Covers [room n s] (.ok s) n :=
  ⟨by simp [room], by simp [room], by simp [room]; omega⟩

theorem covers_failed {n : ℕ} {e : Stop} : Covers [failed n e] (.halt e) n :=
  ⟨by simp [failed], by simp [failed], by simp [failed]⟩

theorem covers_escaped : Covers [escaped k s] (.ok (escapeAppend k s)) (s.length * 3) :=
  ⟨by simp [escaped], by simp [escaped], by simp [escaped]⟩

theorem covers_unescaped : Covers [unescaped p s] (unescapeAppend p s) s.length :=
  ⟨by simp [unescaped], by simp [unescaped], by simp [unescaped]⟩

theorem covers_kept : Covers [kept s] (.ok s) (s.length * 3) := covers_room (by omega)

theorem Covers.peak_le (h : Covers l o i) : o.peak ≤ i := by
  rw [← h.written, ← h.reserved]
  exact peak_written_le h.excess

theorem Covers.of_eq (h : Covers l o i) (hij : i = j) : Covers l o j := hij ▸ h

theorem covers_encodeUserinfo :
    Covers (encodeUserinfoSlots s) (encodeUserinfo s) (s.length * 3) := by
  unfold encodeUserinfoSlots encodeUserinfo
  cases h : find (':' : Byte) s with
  | none => exact covers_escaped
  | some q =>
    obtain ⟨rfl, -⟩ := find_eq_some.1 h
    refine ((covers_escaped.append covers_kept).append covers_escaped).of_eq ?_
    simp only [List.length_append, List.length_cons, List.length_nil]
    omega

theorem covers_encodeUserinfoAt :
    Covers (encodeUserinfoAtSlots asserts s) (encodeUserinfoAt asserts s) (s.length * 3) := by
  unfold encodeUserinfoAtSlots encodeUserinfoAt
  split_ifs with hs
  · rw [hs]
    exact .nil
  · exact covers_failed
  · have hpos := List.length_pos_iff.2 hs
    have h := (covers_encodeUserinfo (s := s.dropLast)).append
      (covers_room (s := []) (n := 3) (by simp))
    rw [Out.append_ok_nil] at h
    refine h.of_eq ?_
    rw [List.length_dropLast]
    omega

theorem covers_encodeAuthority :
    Covers (encodeAuthoritySlots s) (encodeAuthority s) (s.length * 3) := by
  unfold encodeAuthoritySlots encodeAuthority
  cases h : find ('@' : Byte) s with
  | none => exact covers_escaped
  | some q =>
    obtain ⟨rfl, -⟩ := find_eq_some.1 h
    have hat := (covers_encodeUserinfo (s := q.1)).append (covers_kept (s := ['@']))
    have hall := hat.append (covers_escaped (k := .host) (s := q.2))
    rw [List.append_assoc] at hall
    refine hall.of_eq ?_
    simp only [List.length_append, List.length_cons, List.length_nil]
    omega

theorem covers_encodeSsAuthority :
    Covers (encodeSsAuthoritySlots asserts s) (encodeSsAuthority asserts s) (s.length * 3) := by
  unfold encodeSsAuthoritySlots encodeSsAuthority
  split_ifs with hs hp hl
  · rw [hs]
    exact .nil
  · exact covers_failed
  · have hpos := List.length_pos_iff.2 hs
    have h := (covers_room (s := lit "//") (n := 3) (by decide)).append
      (covers_failed (n := 0) (e := .wild))
    exact h.of_eq (by omega)
  · refine ((covers_kept (s := lit "//")).append covers_encodeAuthority).of_eq ?_
    have htwo : (lit "//").length = 2 := rfl
    rw [List.length_drop]
    omega

theorem covers_encodeSchemeAuthority :
    Covers (encodeSchemeAuthoritySlots asserts s) (encodeSchemeAuthority asserts s)
      (s.length * 3) := by
  unfold encodeSchemeAuthoritySlots encodeSchemeAuthority
  cases h : find (':' : Byte) s with
  | none => exact covers_encodeSsAuthority
  | some q =>
    obtain ⟨rfl, -⟩ := find_eq_some.1 h
    refine (covers_kept.append covers_encodeSsAuthority).of_eq ?_
    simp only [List.length_append, List.length_cons, List.length_nil]
    omega

theorem covers_encodeQmQueryFrag :
    Covers (encodeQmQueryFragSlots s) (encodeQmQueryFrag s) (s.length * 3) := by
  unfold encodeQmQueryFragSlots encodeQmQueryFrag
  cases h : find ('#' : Byte) s with
  | none => exact covers_escaped
  | some q =>
    obtain ⟨rfl, -⟩ := find_eq_some.1 h
    refine (covers_escaped.append covers_escaped).of_eq ?_
    simp only [List.length_append, List.length_cons]
    omega

theorem covers_encodeAppend :
    Covers (encodeSlots asserts t s) (encodeAppend asserts t s) (maxEncodeSize t s.length) := by
  cases t with
  | scheme | schemeColon | port | autoPort => exact covers_room le_rfl
  | userinfo => exact covers_encodeUserinfo
  | userinfoAt => exact covers_encodeUserinfoAt
  | authority => exact covers_encodeAuthority
  | ssAuthority => exact covers_encodeSsAuthority
  | schemeAuthority => exact covers_encodeSchemeAuthority
  | qmQueryFrag => exact covers_encodeQmQueryFrag
  | _ => exact covers_escaped

theorem covers_decodeAppend : Covers (decodeSlots t s) (decodeAppend t s) s.length := by
  cases t with
  | scheme | schemeColon | port | autoPort => exact covers_room le_rfl
  | qmQueryFrag =>
    simp only [decodeSlots, decodeAppend, decodeQmQueryFrag]
    cases h : find ('#' : Byte) s with
    | none => exact covers_unescaped
    | some q =>
      obtain ⟨rfl, -⟩ := find_eq_some.1 h
      refine (covers_unescaped.append covers_unescaped).of_eq ?_
      rw [List.length_append]
  | _ => exact covers_unescaped

theorem covers_codecCvtAppend (asserts : Bool) (t : Tag) (dest src : Codec) (s : Bytes) :
    Covers (cvtSlots asserts t dest src s)
    (codecCvtAppend asserts t dest src s) (maxCodecCvtSize t dest src s.length) := by
  unfold cvtSlots codecCvtAppend maxCodecCvtSize
  split_ifs with hd he he
  · exact absurd (hd.1.symm.trans he.1) (by decide)
  · exact covers_decodeAppend
  · exact covers_encodeAppend
  · exact covers_room le_rfl

theorem peak_codecCvtAppend_le :
    (codecCvtAppend asserts t dest src s).peak ≤ maxCodecCvtSize t dest src s.length :=
  (covers_codecCvtAppend ..).peak_le

end Conversions

end Jkl.Uri
