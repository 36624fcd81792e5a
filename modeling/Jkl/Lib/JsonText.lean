import Mathlib.Data.Int.Basic
import Mathlib.Data.List.Basic
import Mathlib.Tactic.Common

/-! Reading JSON texts, as bytes. Numbers are integers, and a `\u` escape is of a code point that
is no surrogate. -/
namespace JsonText

abbrev Text := List UInt8

local instance coeChar : Coe Char UInt8 := ⟨Char.toUInt8⟩

inductive Value where
  | null
  | bool (b : Bool)
  | int (n : ℤ)
  | str (s : Text)
  | arr (es : List Value)
  | obj (ms : List (Text × Value))

def isSpace (c : UInt8) : Bool := c = 0x20 || c = 0x09 || c = 0x0a || c = 0x0d

def skipSpace (s : Text) : Text := s.dropWhile isSpace

/-! Strings. -/

def hexValue (c : UInt8) : Option ℕ :=
  if '0' ≤ c ∧ c ≤ '9' then some (c.toNat - 0x30)
  else if 'A' ≤ c ∧ c ≤ 'F' then some (c.toNat - 0x37)
  else if 'a' ≤ c ∧ c ≤ 'f' then some (c.toNat - 0x57)
  else none

/-- The bytes of a code point below 2 ^ 16. -/
def utf8 (u : ℕ) : Option Text :=
  if u < 0x80 then some [UInt8.ofNat u]
  else if u < 0x800 then some [UInt8.ofNat (0xc0 + u / 64), UInt8.ofNat (0x80 + u % 64)]
  else if 0xd800 ≤ u ∧ u < 0xe000 then none
  else some [UInt8.ofNat (0xe0 + u / 4096), UInt8.ofNat (0x80 + u / 64 % 64),
    UInt8.ofNat (0x80 + u % 64)]

def hexEscape (a b c d : UInt8) : Option Text :=
  match hexValue a, hexValue b, hexValue c, hexValue d with
  | some a, some b, some c, some d => utf8 (((a * 16 + b) * 16 + c) * 16 + d)
  | _, _, _, _ => none

/-- What a backslash and one more byte stand for. -/
def shortEscape (c : UInt8) : Option UInt8 :=
  if c = '"' ∨ c = '\\' ∨ c = '/' then some c
  else if c = 'b' then some 0x08
  else if c = 'f' then some 0x0c
  else if c = 'n' then some 0x0a
  else if c = 'r' then some 0x0d
  else if c = 't' then some 0x09
  else none

/-- A string behind its opening quote, and what follows the closing one. -/
def string : Text → Option (Text × Text)
  | [] => none
  | c :: s =>
    if c = '"' then some ([], s)
    else if c = '\\' then
      match s with
      | [] => none
      | e :: s =>
        if e = 'u' then
          match s with
          | h₁ :: h₂ :: h₃ :: h₄ :: s =>
            match hexEscape h₁ h₂ h₃ h₄ with
            | some bs => (string s).map fun r => (bs ++ r.1, r.2)
            | none => none
          | _ => none
        else
          match shortEscape e with
          | some b => (string s).map fun r => (b :: r.1, r.2)
          | none => none
    else if c < 0x20 then none
    else (string s).map fun r => (c :: r.1, r.2)

/-! Numbers and literal names. -/

def isDigit (c : UInt8) : Bool := 0x30 ≤ c && c ≤ 0x39

def decimal (ds : Text) : ℕ := ds.foldl (fun n c => n * 10 + (c - 0x30).toNat) 0

/-- What may not follow an integer: a fraction or an exponent makes it another number. -/
def continuesNumber (c : UInt8) : Bool := c = '.' || c = 'e' || c = 'E'

def natural (s : Text) : Option (ℕ × Text) :=
  let ds := s.takeWhile isDigit
  let rest := s.dropWhile isDigit
  if ds = [] ∨ (ds.head? = some ('0' : UInt8) ∧ ds.length ≠ 1) ∨ rest.head?.any continuesNumber then
    none
  else some (decimal ds, rest)

def number (s : Text) : Option (Value × Text) :=
  match s with
  | [] => none
  | c :: t =>
    if c = '-' then (natural t).map fun r => (.int (-r.1), r.2)
    else (natural s).map fun r => (.int r.1, r.2)

def literal (w : String) : Text := w.toList.map Char.toUInt8

def scalar (s : Text) : Option (Value × Text) :=
  if literal "null" <+: s then some (.null, s.drop 4)
  else if literal "true" <+: s then some (.bool true, s.drop 4)
  else if literal "false" <+: s then some (.bool false, s.drop 5)
  else number s

/-! Values. Every call reads at least one byte before the next, so the length of a text is fuel
enough. -/

/-- The name of a member, and what follows the colon. -/
def name (s : Text) : Option (Text × Text) :=
  match skipSpace s with
  | [] => none
  | c :: s =>
    if c = '"' then
      match string s with
      | none => none
      | some (k, s) =>
        if (skipSpace s).head? = some (':' : UInt8) then some (k, (skipSpace s).tail) else none
    else none

mutual
def value : ℕ → Text → Option (Value × Text)
  | 0, _ => none
  | n + 1, s =>
    match skipSpace s with
    | [] => none
    | c :: s =>
      if c = '"' then (string s).map fun r => (.str r.1, r.2)
      else if c = '[' then
        if (skipSpace s).head? = some (']' : UInt8) then some (.arr [], (skipSpace s).tail)
        else (elements n s).map fun r => (.arr r.1, r.2)
      else if c = '{' then
        if (skipSpace s).head? = some ('}' : UInt8) then some (.obj [], (skipSpace s).tail)
        else (members n s).map fun r => (.obj r.1, r.2)
      else scalar (c :: s)
def elements : ℕ → Text → Option (List Value × Text)
  | 0, _ => none
  | n + 1, s =>
    match value n s with
    | none => none
    | some (v, s) =>
      match skipSpace s with
      | [] => none
      | c :: s =>
        if c = ',' then (elements n s).map fun r => (v :: r.1, r.2)
        else if c = ']' then some ([v], s)
        else none
def members : ℕ → Text → Option (List (Text × Value) × Text)
  | 0, _ => none
  | n + 1, s =>
    match name s with
    | none => none
    | some (k, s) =>
      match value n s with
      | none => none
      | some (v, s) =>
        match skipSpace s with
        | [] => none
        | c :: s =>
          if c = ',' then (members n s).map fun r => ((k, v) :: r.1, r.2)
          else if c = '}' then some ([(k, v)], s)
          else none
end

attribute [local simp] value elements members

/-- The value of a text. -/
def decode (s : Text) : Option Value :=
  match value s.length s with
  | some (v, rest) => if skipSpace rest = [] then some v else none
  | none => none

variable {s rest : Text} {c b : UInt8} {n : ℕ}

/-! Space. -/

theorem skipSpace_cons (h : isSpace c = false) : skipSpace (c :: s) = c :: s := by
  rw [skipSpace, List.dropWhile_cons, if_neg (by simp [h])]

@[simp] theorem skipSpace_nil : skipSpace [] = [] := rfl

/-! Strings. -/

/-- A byte that stands for itself in a string. -/
def isPlain (c : UInt8) : Bool := decide (c ≠ '"' ∧ c ≠ '\\' ∧ 0x20 ≤ c)

theorem string_quote : string (('"' : UInt8) :: rest) = some ([], rest) := by
  rw [string.eq_def]
  exact if_pos rfl

theorem string_plain (h : isPlain c = true) :
    string (c :: s) = (string s).map fun r => (c :: r.1, r.2) := by
  obtain ⟨hquote, hbackslash, hctrl⟩ := of_decide_eq_true h
  rw [string.eq_def]
  dsimp only
  rw [if_neg hquote, if_neg hbackslash, if_neg (UInt8.not_lt.2 hctrl)]

theorem string_short (hu : c ≠ 'u') (h : shortEscape c = some b) :
    string (('\\' : UInt8) :: c :: s) = (string s).map fun r => (b :: r.1, r.2) := by
  have hne : ('\\' : UInt8) ≠ '"' := by decide
  rw [string.eq_def]
  dsimp only
  rw [if_neg hne, if_pos rfl, if_neg hu, h]

theorem string_hex {h₁ h₂ h₃ h₄ : UInt8} {bs : Text} (h : hexEscape h₁ h₂ h₃ h₄ = some bs) :
    string (('\\' : UInt8) :: ('u' : UInt8) :: h₁ :: h₂ :: h₃ :: h₄ :: s) =
      (string s).map fun r => (bs ++ r.1, r.2) := by
  have hne : ('\\' : UInt8) ≠ '"' := by decide
  rw [string.eq_def]
  dsimp only
  rw [if_neg hne, if_pos rfl, if_pos rfl, h]

/-- A text without quotes, backslashes and control characters is its own content. -/
theorem string_of_plain (h : ∀ c ∈ s, isPlain c = true) :
    string (s ++ ('"' : UInt8) :: rest) = some (s, rest) := by
  induction s with
  | nil => exact string_quote
  | cons c s ih =>
    obtain ⟨hc, hs⟩ := List.forall_mem_cons.1 h
    rw [List.cons_append, string_plain hc, ih hs, Option.map_some]

/-! Numbers. -/

/-- What may follow a value inside a text, or its end. -/
def Follows (s : Text) : Prop := ∀ c ∈ s.head?, c = ',' ∨ c = ']' ∨ c = '}'

theorem follows_nil : Follows [] := by
  simp [Follows]

theorem follows_cons : Follows (c :: s) ↔ c = ',' ∨ c = ']' ∨ c = '}' := by
  simp [Follows]

theorem Follows.not_digit (h : Follows (c :: s)) : isDigit c = false := by
  obtain rfl | rfl | rfl := follows_cons.1 h <;> decide

theorem Follows.not_continues (h : Follows s) : s.head?.any continuesNumber = false := by
  cases s with
  | nil => rfl
  | cons c s =>
    change continuesNumber c = false
    obtain rfl | rfl | rfl := follows_cons.1 h <;> decide

theorem natural_append {ds : Text} (hne : ds ≠ []) (hds : ∀ c ∈ ds, isDigit c = true)
    (hzero : ds.head? = some ('0' : UInt8) → ds.length = 1) (hrest : Follows rest) :
    natural (ds ++ rest) = some (decimal ds, rest) := by
  have htake : (ds ++ rest).takeWhile isDigit = ds := by
    rw [List.takeWhile_append_of_pos hds]
    cases rest with
    | nil => simp
    | cons c t => rw [List.takeWhile_cons, if_neg (by simp [hrest.not_digit]), List.append_nil]
  have hdrop : (ds ++ rest).dropWhile isDigit = rest := by
    rw [List.dropWhile_append_of_pos hds]
    cases rest with
    | nil => rfl
    | cons c t => rw [List.dropWhile_cons, if_neg (by simp [hrest.not_digit])]
  unfold natural
  dsimp only
  rw [htake, hdrop, if_neg]
  rintro (h | ⟨h, hlen⟩ | h)
  · exact hne h
  · exact hlen (hzero h)
  · rw [hrest.not_continues] at h
    cases h

theorem number_natural {ds : Text} (hne : ds ≠ []) (hds : ∀ c ∈ ds, isDigit c = true)
    (hzero : ds.head? = some ('0' : UInt8) → ds.length = 1) (hrest : Follows rest) :
    number (ds ++ rest) = some (.int (decimal ds), rest) := by
  obtain ⟨c, ds', rfl⟩ := List.exists_cons_of_ne_nil hne
  have hminus : c ≠ '-' := by
    rintro rfl
    exact absurd (hds _ List.mem_cons_self) (by decide)
  rw [List.cons_append, number, if_neg hminus, ← List.cons_append,
    natural_append hne hds hzero hrest, Option.map_some]

theorem number_minus {ds : Text} (hne : ds ≠ []) (hds : ∀ c ∈ ds, isDigit c = true)
    (hzero : ds.head? = some ('0' : UInt8) → ds.length = 1) (hrest : Follows rest) :
    number (('-' : UInt8) :: (ds ++ rest)) = some (.int (-decimal ds), rest) := by
  rw [number, if_pos rfl, natural_append hne hds hzero hrest, Option.map_some]

/-- A number begins with none of the first letters of the literal names. -/
theorem scalar_number (hn : c ≠ 'n') (ht : c ≠ 't') (hf : c ≠ 'f') :
    scalar (c :: s) = number (c :: s) := by
  have hpre : ∀ (w : Text) (d : UInt8), c ≠ d → ¬d :: w <+: c :: s := by
    intro w d hne h
    exact hne (List.cons_prefix_cons.1 h).1.symm
  have hnull : ¬literal "null" <+: c :: s := hpre (literal "ull") 'n' hn
  have htrue : ¬literal "true" <+: c :: s := hpre (literal "rue") 't' ht
  have hfalse : ¬literal "false" <+: c :: s := hpre (literal "alse") 'f' hf
  rw [scalar, if_neg hnull, if_neg htrue, if_neg hfalse]

theorem scalar_null : scalar (literal "null" ++ rest) = some (.null, rest) := by
  rw [scalar, if_pos (List.prefix_append _ _)]
  rfl

theorem scalar_bool (b : Bool) :
    scalar (literal (if b then "true" else "false") ++ rest) = some (.bool b, rest) := by
  cases b with
  | true => rfl
  | false => rfl

/-! Values. -/

section Rules

variable {v : Value} {k : Text} {es : List Value} {ms : List (Text × Value)}

theorem value_str (h : string s = some (k, rest)) :
    value (n + 1) (('"' : UInt8) :: s) = some (.str k, rest) := by
  rw [value, skipSpace_cons (by decide)]
  dsimp only
  rw [if_pos rfl, h, Option.map_some]

theorem value_scalar (hspace : isSpace c = false) (hquote : c ≠ '"') (harr : c ≠ '[')
    (hobj : c ≠ '{') (h : scalar (c :: s) = some (v, rest)) :
    value (n + 1) (c :: s) = some (v, rest) := by
  rw [value, skipSpace_cons hspace]
  dsimp only
  rw [if_neg hquote, if_neg harr, if_neg hobj, h]

theorem value_arr_nil :
    value (n + 1) (('[' : UInt8) :: (']' : UInt8) :: rest) = some (.arr [], rest) := by
  have hne : ('[' : UInt8) ≠ '"' := by decide
  rw [value, skipSpace_cons (by decide)]
  dsimp only
  rw [if_neg hne, if_pos rfl, skipSpace_cons (by decide)]
  exact if_pos rfl

theorem value_arr (hspace : isSpace c = false) (hc : c ≠ ']')
    (h : elements n (c :: s) = some (es, rest)) :
    value (n + 1) (('[' : UInt8) :: c :: s) = some (.arr es, rest) := by
  have hne : ('[' : UInt8) ≠ '"' := by decide
  have hhead : (c :: s).head? ≠ some (']' : UInt8) := fun e => hc (Option.some.inj e)
  rw [value, skipSpace_cons (by decide)]
  dsimp only
  rw [if_neg hne, if_pos rfl, skipSpace_cons hspace, if_neg hhead, h, Option.map_some]

theorem value_obj_nil :
    value (n + 1) (('{' : UInt8) :: ('}' : UInt8) :: rest) = some (.obj [], rest) := by
  have hne : ('{' : UInt8) ≠ '"' := by decide
  have hne' : ('{' : UInt8) ≠ '[' := by decide
  rw [value, skipSpace_cons (by decide)]
  dsimp only
  rw [if_neg hne, if_neg hne', if_pos rfl, skipSpace_cons (by decide)]
  exact if_pos rfl

theorem value_obj (hspace : isSpace c = false) (hc : c ≠ '}')
    (h : members n (c :: s) = some (ms, rest)) :
    value (n + 1) (('{' : UInt8) :: c :: s) = some (.obj ms, rest) := by
  have hne : ('{' : UInt8) ≠ '"' := by decide
  have hne' : ('{' : UInt8) ≠ '[' := by decide
  have hhead : (c :: s).head? ≠ some ('}' : UInt8) := fun e => hc (Option.some.inj e)
  rw [value, skipSpace_cons (by decide)]
  dsimp only
  rw [if_neg hne, if_neg hne', if_pos rfl, skipSpace_cons hspace, if_neg hhead, h,
    Option.map_some]

theorem elements_last (h : value n s = some (v, (']' : UInt8) :: rest)) :
    elements (n + 1) s = some ([v], rest) := by
  have hne : (']' : UInt8) ≠ ',' := by decide
  rw [elements, h]
  dsimp only
  rw [skipSpace_cons (by decide)]
  dsimp only
  rw [if_neg hne, if_pos rfl]

theorem elements_cons {t : Text} (h : value n s = some (v, (',' : UInt8) :: t))
    (ht : elements n t = some (es, rest)) : elements (n + 1) s = some (v :: es, rest) := by
  rw [elements, h]
  dsimp only
  rw [skipSpace_cons (by decide)]
  dsimp only
  rw [if_pos rfl, ht, Option.map_some]

theorem name_quote (h : string s = some (k, (':' : UInt8) :: rest)) :
    name (('"' : UInt8) :: s) = some (k, rest) := by
  rw [name, skipSpace_cons (by decide)]
  dsimp only
  rw [if_pos rfl, h]
  dsimp only
  rw [skipSpace_cons (by decide)]
  exact if_pos rfl

theorem members_last {t : Text} (hk : name s = some (k, t))
    (h : value n t = some (v, ('}' : UInt8) :: rest)) :
    members (n + 1) s = some ([(k, v)], rest) := by
  have hne : ('}' : UInt8) ≠ ',' := by decide
  rw [members, hk]
  dsimp only
  rw [h]
  dsimp only
  rw [skipSpace_cons (by decide)]
  dsimp only
  rw [if_neg hne, if_pos rfl]

theorem members_cons {t t' : Text} (hk : name s = some (k, t))
    (h : value n t = some (v, (',' : UInt8) :: t')) (ht : members n t' = some (ms, rest)) :
    members (n + 1) s = some ((k, v) :: ms, rest) := by
  rw [members, hk]
  dsimp only
  rw [h]
  dsimp only
  rw [skipSpace_cons (by decide)]
  dsimp only
  rw [if_pos rfl, ht, Option.map_some]

theorem decode_of_value (h : value s.length s = some (v, [])) : decode s = some v := by
  rw [decode, h]
  exact if_pos rfl

end Rules

end JsonText
