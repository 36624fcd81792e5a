import Jkl.Http.ContentType

/-! Header values that follow the grammar, and what the scan makes of their parameters: a quoted
string is taken to end at its first double quote, which may be an escaped one. -/
namespace Jkl.Http

open Uri (Byte Bytes lit toLower)

/-- Neither a control, a blank nor a separator. -/
def isTokenChar (c : Byte) : Bool :=
  0x20 < c && c < 0x7f && c ∉ lit "()<>@,;:\\\"/[]?=\x7b\x7d"

structure Token where
  chars : Bytes
  ne : chars ≠ []
  ok : ∀ c ∈ chars, isTokenChar c = true

/-- What a quoted string consists of: a character, or any character behind a backslash. -/
inductive Piece where
  | plain (c : Byte) (hquote : c ≠ '"') (hslash : c ≠ '\\')
  | pair (c : Byte)

namespace Piece

def text : Piece → Bytes
  | plain c _ _ => [c]
  | pair c => ['\\', c]

def char : Piece → Byte
  | plain c _ _ => c
  | pair c => c

/-- White space around a value is not escaped. -/
def isBlank : Piece → Bool
  | plain c _ _ => isHttpLws c
  | pair _ => false

end Piece

inductive Value where
  | token (t : Token)
  | quoted (ps : List Piece)

namespace Value

def text : Value → Bytes
  | token t => t.chars
  | quoted ps => ('"' : Byte) :: (ps.flatMap Piece.text ++ [('"' : Byte)])

/-- A quoted string without the white space around it. -/
def core (ps : List Piece) : List Piece := (ps.dropWhile Piece.isBlank).rdropWhile Piece.isBlank

/-- The unescaped value. -/
def val : Value → Bytes
  | token t => t.chars
  | quoted ps => (core ps).map Piece.char

/-- There is no escaped quote in the value, and no escaped blank at its end. -/
def Plain : Value → Prop
  | token _ => True
  | quoted ps => ('"' : Byte) ∉ ps.map Piece.char ∧
      ∀ c, (core ps).getLast? = some (.pair c) → isHttpLws c = false

/-- Behind an escaped quote there is a `';'`, and behind that a `'='`. -/
def Leaks : Value → Prop
  | token _ => False
  | quoted ps => (lit "\";=").Sublist (ps.map Piece.char)

end Value

/-- `OWS ";" OWS attribute "=" value`. -/
structure Param where
  before : Bytes
  after : Bytes
  name : Token
  value : Value
  before_blank : ∀ c ∈ before, isHttpLws c = true
  after_blank : ∀ c ∈ after, isHttpLws c = true

namespace Param

variable (p : Param)

def body : Bytes := p.after ++ p.name.chars ++ ('=' : Byte) :: p.value.text

def text : Bytes := p.before ++ (';' : Byte) :: p.body

end Param

/-- `type "/" subtype` and the parameters. -/
structure HeaderValue where
  type : Token
  subtype : Token
  params : List Param
  not_any : ¬(type.chars = lit "*" ∧ subtype.chars = lit "*")

namespace HeaderValue

variable (h : HeaderValue) (o : ContentType)

def mime : Bytes := h.type.chars ++ ('/' : Byte) :: h.subtype.chars

def text : Bytes := h.mime ++ h.params.flatMap Param.text

end HeaderValue

/-- The first value that is not empty. -/
def firstValue (vs : List Bytes) : Bytes := (vs.find? (· ≠ [])).getD []

/-- The values of the parameters of a name. -/
def valuesOf (name : Bytes) (ps : List Param) : List Bytes :=
  (ps.filter fun p => iequal p.name.chars name).map fun p => p.value.val

/-- What the parameters are to make of an object. What it has already is not set again. -/
def Sets (o : ContentType) (ps : List Param) (t : ContentType) : Prop :=
  t.charset = firstValue (o.charset :: (valuesOf (lit "charset") ps).map (·.map toLower)) ∧
    t.boundary = firstValue (o.boundary :: valuesOf (lit "boundary") ps)

/-- The parameters of a name are plain up to the first that is not empty. -/
def PlainFirst (name : Bytes) : List Param → Prop
  | [] => True
  | p :: ps =>
    if iequal p.name.chars name then
      p.value.Plain ∧ (p.value.val = [] → PlainFirst name ps)
    else PlainFirst name ps

/-! What the scan makes of a value. -/

/-- A quoted string as far as its first double quote. -/
def Value.read : Value → Bytes
  | .token t => t.chars
  | .quoted ps => unescaped (trimmed ((ps.flatMap Piece.text).takeWhile (· ≠ ('"' : Byte))))

variable {ps : List Piece} {v : Value} {w s : Bytes} {c : Byte}

theorem isHttpLws_slash : isHttpLws '\\' = false := by decide

theorem unescaped_cons (hq : c ≠ '"') (hs : c ≠ '\\') : unescaped (c :: s) = c :: unescaped s := by
  cases s with
  | nil => simp [unescaped, hq]
  | cons d s => rw [unescaped, if_neg hq, if_neg hs]

theorem unescaped_text : unescaped (ps.flatMap Piece.text ++ w) =
    ps.map Piece.char ++ unescaped w := by
  induction ps with
  | nil => rfl
  | cons p ps ih =>
    cases p with
    | plain c hq hs =>
      simp only [List.flatMap_cons, Piece.text, List.map_cons, Piece.char, List.cons_append,
        List.nil_append, unescaped_cons hq hs, ih]
    | pair c =>
      have hne : ('\\' : Byte) ≠ '"' := by decide
      simp only [List.flatMap_cons, Piece.text, List.map_cons, Piece.char, List.cons_append,
        List.nil_append, unescaped, if_neg hne, if_true, ih]

theorem takeWhile_text (hps : ('"' : Byte) ∉ ps.map Piece.char) :
    (ps.flatMap Piece.text).takeWhile (· ≠ ('"' : Byte)) = ps.flatMap Piece.text := by
  rw [List.takeWhile_eq_self_iff]
  intro c hc
  obtain ⟨p, hp, hcp⟩ := List.mem_flatMap.1 hc
  refine decide_eq_true ?_
  rintro rfl
  cases p with
  | plain c hq hs => exact hq (List.mem_singleton.1 hcp).symm
  | pair c =>
    obtain h | h := List.mem_pair.1 hcp
    · exact absurd h (by decide)
    · exact hps (List.mem_map.2 ⟨_, hp, h.symm⟩)

theorem takeWhile_text_quote (hps : ('"' : Byte) ∈ ps.map Piece.char) : ∃ a : List Piece,
    (ps.flatMap Piece.text).takeWhile (· ≠ ('"' : Byte)) = a.flatMap Piece.text ++ [('\\' : Byte)] ∧
      ('"' : Byte) ∉ a.map Piece.char := by
  induction ps with
  | nil => cases hps
  | cons p ps ih =>
    cases p with
    | plain c hq hs =>
      obtain ⟨a, ha, hna⟩ := ih ((List.mem_cons.1 hps).resolve_left (Ne.symm hq))
      refine ⟨.plain c hq hs :: a, ?_, ?_⟩
      · simp only [List.flatMap_cons, Piece.text, List.cons_append, List.nil_append,
          List.takeWhile_cons, decide_eq_true hq, if_true, ha]
      · rw [List.map_cons, List.mem_cons, not_or]
        exact ⟨Ne.symm hq, hna⟩
    | pair c =>
      by_cases hc : c = '"'
      · subst hc
        exact ⟨[], rfl, List.not_mem_nil⟩
      · obtain ⟨a, ha, hna⟩ := ih ((List.mem_cons.1 hps).resolve_left (Ne.symm hc))
        refine ⟨.pair c :: a, ?_, ?_⟩
        · have hne : ('\\' : Byte) ≠ '"' := by decide
          simp only [List.flatMap_cons, Piece.text, List.cons_append, List.nil_append,
            List.takeWhile_cons, decide_eq_true hne, decide_eq_true hc, if_true, ha]
        · rw [List.map_cons, List.mem_cons, not_or]
          exact ⟨Ne.symm hc, hna⟩

theorem dropWhile_text (hw : ∀ c, w.head? = some c → isHttpLws c = false) :
    (ps.flatMap Piece.text ++ w).dropWhile isHttpLws =
      (ps.dropWhile Piece.isBlank).flatMap Piece.text ++ w := by
  induction ps with
  | nil =>
    cases w with
    | nil => rfl
    | cons c w => simp [hw c rfl]
  | cons p ps ih =>
    cases p with
    | plain c hq hs =>
      cases hc : isHttpLws c with
      | true => simpa [Piece.text, Piece.isBlank, hc] using ih
      | false => simp [Piece.text, Piece.isBlank, hc]
    | pair c => simp [Piece.text, Piece.isBlank, isHttpLws_slash]

theorem rdropWhile_text
    (hps : ∀ c, (ps.rdropWhile Piece.isBlank).getLast? = some (.pair c) → isHttpLws c = false) :
    (ps.flatMap Piece.text).rdropWhile isHttpLws =
      (ps.rdropWhile Piece.isBlank).flatMap Piece.text := by
  induction ps using List.reverseRecOn with
  | nil => rfl
  | append_singleton ps p ih =>
    rw [List.rdropWhile_concat] at hps ⊢
    rw [List.flatMap_append, List.flatMap_singleton]
    cases p with
    | plain c hq hs =>
      rw [Piece.text, List.rdropWhile_concat]
      cases hc : isHttpLws c with
      | true =>
        simp only [Piece.isBlank, hc, if_true] at hps ⊢
        exact ih hps
      | false => simp [Piece.isBlank, hc, Piece.text]
    | pair c =>
      have hc : isHttpLws c = false := hps c (by simp [Piece.isBlank])
      have hne : ¬isHttpLws c = true := by simp [hc]
      have happ : ps.flatMap Piece.text ++ Piece.text (.pair c) =
          (ps.flatMap Piece.text ++ [('\\' : Byte)]) ++ [c] := by simp [Piece.text]
      rw [happ, List.rdropWhile_concat_neg _ _ _ hne]
      simp [Piece.isBlank, Piece.text]

theorem rdropWhile_text_pair {a : List Piece} (hc : isHttpLws c = true)
    (hps : ps.rdropWhile Piece.isBlank = a ++ [.pair c]) :
    (ps.flatMap Piece.text).rdropWhile isHttpLws = a.flatMap Piece.text ++ [('\\' : Byte)] := by
  induction ps using List.reverseRecOn with
  | nil => simp at hps
  | append_singleton ps p ih =>
    rw [List.rdropWhile_concat] at hps
    rw [List.flatMap_append, List.flatMap_singleton]
    split_ifs at hps with hp
    · cases p with
      | plain d hq hs =>
        have hd : isHttpLws d = true := hp
        rw [Piece.text, List.rdropWhile_concat_pos _ _ _ hd]
        exact ih hps
      | pair d => cases hp
    · obtain ⟨rfl, hlast⟩ := List.append_inj' hps rfl
      obtain rfl := List.singleton_inj.1 hlast
      have happ : ps.flatMap Piece.text ++ Piece.text (.pair c) =
          (ps.flatMap Piece.text ++ [('\\' : Byte)]) ++ [c] := by simp [Piece.text]
      rw [happ, List.rdropWhile_concat_pos _ _ _ hc, List.rdropWhile_concat_neg]
      simp [isHttpLws_slash]

theorem read_of_plain (h : v.Plain) : v.read = v.val := by
  cases v with
  | token t => rfl
  | quoted ps =>
    obtain ⟨hq, hlast⟩ := h
    have htrim : trimmed (ps.flatMap Piece.text) = (Value.core ps).flatMap Piece.text := by
      have hd := @dropWhile_text ps [] (by simp)
      rw [List.append_nil, List.append_nil] at hd
      rw [trimmed, hd, rdropWhile_text hlast, Value.core]
    have hval := @unescaped_text (Value.core ps) []
    rw [List.append_nil, unescaped, List.append_nil] at hval
    rw [Value.read, takeWhile_text hq, htrim, hval, Value.val]

theorem unescaped_text_slash :
    unescaped (ps.flatMap Piece.text ++ [('\\' : Byte)]) = ps.map Piece.char ++ [('\\' : Byte)] :=
  unescaped_text

theorem toLower_quote : ∀ c : Byte, toLower c = '"' → c = '"' :=
  Uri.forall_byte (by decide +kernel)

theorem toLower_blank : ∀ c : Byte, isHttpLws c = true → toLower c ≠ toLower '\\' :=
  Uri.forall_byte (by decide +kernel)

theorem mem_core {p : Piece} (hp : p ∈ ps) (hb : p.isBlank = false) : p ∈ Value.core ps := by
  have hd : p ∈ ps.dropWhile Piece.isBlank := by
    rw [← List.takeWhile_append_dropWhile (p := Piece.isBlank) (l := ps), List.mem_append] at hp
    refine hp.resolve_left fun ht => ?_
    rw [List.mem_takeWhile_imp ht] at hb
    cases hb
  rw [← @List.rdropWhile_append_rtakeWhile _ Piece.isBlank (ps.dropWhile Piece.isBlank),
    List.mem_append] at hd
  refine hd.resolve_right fun ht => ?_
  rw [List.mem_rtakeWhile_imp ht] at hb
  cases hb

/-- The first double quote is an escaped one. -/
theorem read_quote (hq : ('"' : Byte) ∈ ps.map Piece.char) : ∃ s : Bytes,
    Value.read (.quoted ps) = s ++ [('\\' : Byte)] ∧ ('"' : Byte) ∉ s := by
  obtain ⟨a, ha, hna⟩ := takeWhile_text_quote hq
  refine ⟨(a.dropWhile Piece.isBlank).map Piece.char, ?_, ?_⟩
  · have hd := @dropWhile_text a [('\\' : Byte)] (by rintro c ⟨⟩; exact isHttpLws_slash)
    rw [Value.read, ha, trimmed, hd, List.rdropWhile_concat_neg, unescaped_text_slash]
    simp [isHttpLws_slash]
  · exact fun hm => hna (((List.dropWhile_sublist _).map _).subset hm)

/-- The value ends with an escaped blank. -/
theorem read_pair {a : List Piece} (hq : ('"' : Byte) ∉ ps.map Piece.char)
    (hc : isHttpLws c = true) (hcore : Value.core ps = a ++ [.pair c]) :
    Value.read (.quoted ps) = a.map Piece.char ++ [('\\' : Byte)] := by
  have hd := @dropWhile_text ps [] (by simp)
  rw [List.append_nil, List.append_nil] at hd
  rw [Value.read, takeWhile_text hq, trimmed, hd, rdropWhile_text_pair hc hcore,
    unescaped_text_slash]

/-- A value that is not plain is neither empty nor read right, also apart from case. -/
theorem read_of_not_plain (h : ¬v.Plain) :
    v.read ≠ [] ∧ v.val ≠ [] ∧ v.read.map toLower ≠ v.val.map toLower := by
  cases v with
  | token t => exact absurd trivial h
  | quoted ps =>
    by_cases hq : ('"' : Byte) ∈ ps.map Piece.char
    · obtain ⟨s, hread, hns⟩ := read_quote hq
      have hval : ('"' : Byte) ∈ Value.val (.quoted ps) := by
        obtain ⟨p, hp, hpq⟩ := List.mem_map.1 hq
        refine List.mem_map.2 ⟨p, mem_core hp ?_, hpq⟩
        cases p with
        | plain c hne => exact absurd hpq hne
        | pair c => rfl
      refine ⟨by simp [hread], List.ne_nil_of_mem hval, fun heq => ?_⟩
      have hm : ('"' : Byte) ∈ (Value.read (.quoted ps)).map toLower :=
        heq ▸ List.mem_map.2 ⟨'"', hval, by decide⟩
      obtain ⟨d, hd, hdq⟩ := List.mem_map.1 hm
      rw [toLower_quote d hdq, hread, List.mem_append, List.mem_singleton] at hd
      exact hd.elim hns (by decide)
    · have hlast : ∃ c, (Value.core ps).getLast? = some (.pair c) ∧ isHttpLws c = true := by
        by_contra hn
        refine h ⟨hq, fun c hc => ?_⟩
        rw [← Bool.not_eq_true]
        exact fun hb => hn ⟨c, hc, hb⟩
      obtain ⟨c, hlast, hc⟩ := hlast
      obtain ⟨a, ha⟩ := List.getLast?_eq_some_iff.1 hlast
      have hread := read_pair hq hc ha
      have hval : Value.val (.quoted ps) = a.map Piece.char ++ [c] := by
        rw [Value.val, ha, List.map_append]
        rfl
      refine ⟨by simp [hread], by simp [hval], fun heq => ?_⟩
      rw [hread, hval, List.map_append, List.map_append] at heq
      have hslash := List.singleton_inj.1 (List.append_inj_right' heq rfl)
      exact toLower_blank c hc hslash.symm

/-! What the scan makes of the parameters: each sets what `read` gives of its value. -/

def readAll (ps : List Param) (o : ContentType) : ContentType :=
  ps.foldl (fun o p => o.assign p.name.chars p.value.read) o

/-- One member of the object: `f` is what is done to the value of the parameter of the name. -/
def readInto (f : Bytes → Bytes) (name : Bytes) (ps : List Param) (held : Bytes) : Bytes :=
  ps.foldl
    (fun held p => if held = [] ∧ iequal p.name.chars name then f p.value.read else held) held

variable {o : ContentType} {f : Bytes → Bytes} {name held : Bytes} {qs : List Param}

theorem readAll_charset :
    (readAll qs o).charset = readInto (·.map toLower) (lit "charset") qs o.charset := by
  refine (List.foldl_hom ContentType.charset fun o p => ?_).symm
  rw [ContentType.assign]
  split_ifs <;> rfl

theorem readAll_boundary :
    (readAll qs o).boundary = readInto id (lit "boundary") qs o.boundary := by
  refine (List.foldl_hom ContentType.boundary fun o p => ?_).symm
  rw [ContentType.assign]
  by_cases hc : o.charset = [] ∧ iequal p.name.chars (lit "charset") = true
  · -- one name is not the other
    have hb : ¬iequal p.name.chars (lit "boundary") = true := by
      intro hb
      have heq := (of_decide_eq_true hc.2).symm.trans (of_decide_eq_true hb)
      exact absurd heq (by decide)
    rw [if_pos hc, if_neg fun h => hb h.2]
  · rw [if_neg hc]
    split_ifs <;> rfl

theorem firstValue_cons {s : Bytes} {vs : List Bytes} :
    firstValue (s :: vs) = if s = [] then firstValue vs else s := by
  by_cases hs : s = [] <;> simp [firstValue, hs]

theorem readInto_cons {p : Param} : readInto f name (p :: qs) held =
    readInto f name qs
      (if held = [] ∧ iequal p.name.chars name then f p.value.read else held) := rfl

theorem readInto_of_ne (h : held ≠ []) : readInto f name qs held = held := by
  induction qs with
  | nil => rfl
  | cons p qs ih => rw [readInto_cons, if_neg fun hp => h hp.1, ih]

theorem valuesOf_cons {p : Param} : valuesOf name (p :: qs) =
    if iequal p.name.chars name then p.value.val :: valuesOf name qs else valuesOf name qs := by
  cases hp : iequal p.name.chars name <;> simp [valuesOf, hp]

/-- Induction along the parameters: a value that is plain is read right, and one that is not is
taken for the first that is not empty, which it is. -/
theorem readInto_nil_iff (hf : ∀ s, f s = [] ↔ s = [])
    (hne : ∀ v : Value, ¬v.Plain → f v.read ≠ f v.val) :
    readInto f name qs [] = firstValue ((valuesOf name qs).map f) ↔ PlainFirst name qs := by
  induction qs with
  | nil => exact iff_of_true rfl trivial
  | cons p qs ih =>
    rw [readInto_cons, valuesOf_cons, PlainFirst]
    cases hp : iequal p.name.chars name with
    | false => simpa using ih
    | true =>
      simp only [true_and, if_true, List.map_cons, firstValue_cons, hf]
      by_cases hv : p.value.Plain
      · rw [read_of_plain hv]
        by_cases hval : p.value.val = []
        · simp only [hval, (hf []).2 rfl, if_true, ih, hv, true_and, forall_const]
        · rw [readInto_of_ne fun h => hval ((hf _).1 h), if_neg hval]
          exact iff_of_true rfl ⟨hv, fun h => absurd h hval⟩
      · obtain ⟨hread, hval, -⟩ := read_of_not_plain hv
        rw [readInto_of_ne fun h => hread ((hf _).1 h), if_neg hval]
        exact iff_of_false (hne _ hv) fun h => hv h.1

theorem readInto_iff (hf : ∀ s, f s = [] ↔ s = [])
    (hne : ∀ v : Value, ¬v.Plain → f v.read ≠ f v.val) :
    readInto f name qs held = firstValue (held :: (valuesOf name qs).map f) ↔
      (held = [] → PlainFirst name qs) := by
  rw [firstValue_cons]
  by_cases hh : held = []
  · subst hh
    simpa using readInto_nil_iff hf hne
  · rw [readInto_of_ne hh, if_neg hh]
    exact iff_of_true rfl fun h => absurd h hh

theorem sets_readAll_iff : Sets o qs (readAll qs o) ↔
    (o.charset = [] → PlainFirst (lit "charset") qs) ∧
      (o.boundary = [] → PlainFirst (lit "boundary") qs) := by
  have hb := @readInto_iff id (lit "boundary") o.boundary qs (fun _ => Iff.rfl)
    fun v hv heq => (read_of_not_plain hv).2.2 (congrArg _ heq)
  rw [List.map_id] at hb
  rw [Sets, readAll_charset, readAll_boundary, hb]
  exact and_congr_left' (readInto_iff (fun _ => List.map_eq_nil_iff)
    fun v hv => (read_of_not_plain hv).2.2)

end Jkl.Http
