import Jkl.Lib.Search
import Jkl.Lib.View
import Jkl.Uri.Codec

/-! `http_field_content_type::parse`: one scan over a header value, with every read checked. -/
namespace Jkl.Http

open Loop (Turn)
open Search (headIn indexFrom findFrom_headIn_some indexFrom_some)
open Uri (Byte Bytes lit toLower)
open View (Fault)

/-- `http_field_content_type`. -/
structure ContentType where
  mime : Bytes := []
  charset : Bytes := []
  boundary : Bytes := []
deriving DecidableEq

def isHttpLws (c : Byte) : Bool := c = ' ' || c = '\t'

/-- `ascii_iequal`. -/
def iequal (l r : Bytes) : Bool := l.map toLower = r.map toLower

/-- `find_first_not_of(" \t", pos)`. -/
def skipLws (str : Bytes) (pos : ℕ) : Option ℕ :=
  Search.findFrom (headIn fun c => !isHttpLws c) str pos

/-- The loop that moves `vbeg` up over blanks; `n` is its distance from `vend`. -/
def trimLeft (str : Bytes) : ℕ → ℕ → Except Fault ℕ
  | 0, vbeg => .ok vbeg
  | n + 1, vbeg => do
    if isHttpLws (← View.get str vbeg) then trimLeft str n (vbeg + 1) else .ok vbeg

/-- The loop that moves `vend` down over blanks; what it gives is the distance again. -/
def trimRight (str : Bytes) (vbeg : ℕ) : ℕ → Except Fault ℕ
  | 0 => .ok 0
  | n + 1 => do
    if isHttpLws (← View.get str (vbeg + n)) then trimRight str vbeg n else .ok (n + 1)

/-- The loop that copies the value without its backslashes. -/
def unescape (str : Bytes) : ℕ → ℕ → Except Fault Bytes
  | 0, _ => .ok []
  | 1, vbeg => do
    -- a backslash in front of `vend` is copied
    let c ← View.get str vbeg
    if c = '"' then .ok [] else .ok [c]
  | n + 2, vbeg => do
    let c ← View.get str vbeg
    if c = '"' then .ok []
    else if c = '\\' then
      let d ← View.get str (vbeg + 1)
      (d :: ·) <$> unescape str n (vbeg + 2)
    else (c :: ·) <$> unescape str (n + 1) (vbeg + 1)

/-- A value that does not start with a quote, and where the next `';'` is. -/
def tokenValue (str : Bytes) (vbeg : ℕ) : Except Fault (Bytes × Option ℕ) := do
  let offset := indexFrom (';' : Byte) str vbeg
  let n ← trimRight str vbeg (offset.getD str.length - vbeg)
  let value ← View.substr str vbeg (some n)
  return (value, offset)

/-- A quoted string, and where the next `';'` is. -/
def quotedValue (str : Bytes) (offset : ℕ) : Except Fault (Bytes × Option ℕ) := do
  View.assert ((← View.get str offset) = '"')
  let vbeg := offset + 1
  let offset := indexFrom ('"' : Byte) str vbeg
  let vend := offset.getD str.length
  let vbeg ← trimLeft str (vend - vbeg) vbeg
  let n ← trimRight str vbeg (vend - vbeg)
  let value ← unescape str n vbeg
  return (value, offset.bind (indexFrom (';' : Byte) str))

/-- A value of either kind. -/
def paramValue (str : Bytes) (offset : ℕ) : Except Fault (Bytes × Option ℕ) := do
  if (← View.get str offset) ≠ '"' then tokenValue str offset else quotedValue str offset

/-- What a parameter sets. -/
def ContentType.assign (o : ContentType) (name value : Bytes) : ContentType :=
  if o.charset = [] ∧ iequal name (lit "charset") then { o with charset := value.map toLower }
  else if o.boundary = [] ∧ iequal name (lit "boundary") then { o with boundary := value }
  else o

/-- One turn of the loop over the parameters. -/
def param (str : Bytes) (offset : ℕ) (o : ContentType) :
    Except Fault (Turn (ℕ × ContentType) ContentType) := do
  View.assert ((← View.get str offset) = ';')
  match skipLws str (offset + 1) with
  | none => return .done o
  | some nameBeg =>
    match Search.findFrom (headIn fun c : Byte => c = ';' || c = '=') str nameBeg with
    | none => return .done o
    | some offset =>
      -- names without values are ignored
      if (← View.get str offset) = ';' then return .next (offset, o)
      else
        let name ← View.substr str nameBeg (some (offset - nameBeg))
        View.assert ((← View.get str offset) = '=')
        match skipLws str (offset + 1) with
        | none => return .done o
        | some offset =>
          -- nothing but blanks in front of the `';'`
          if (← View.get str offset) = ';' then return .next (offset, o)
          else
            match ← paramValue str offset with
            | (value, none) => return .done (o.assign name value)
            | (value, some offset) => return .next (offset, o.assign name value)

/-- Whether the text in front of the parameters is kept. -/
def isMime (mv : Bytes) : Bool :=
  match indexFrom ('/' : Byte) mv 0 with
  | none => false
  | some q => q ≠ 0 && q + 1 ≠ mv.length && mv ≠ lit "*/*"

/-- What is done in front of the loop. -/
def parseMime (str : Bytes) (o : ContentType) :
    Except Fault (Turn (ℕ × ContentType) ContentType) := do
  match skipLws str 0 with
  | none => return .done o
  | some mimeBeg =>
    let mimeEnd := Search.findFrom (headIn fun c => c ∈ lit " \t;(") str mimeBeg
    let mv ← View.substr str mimeBeg (mimeEnd.map (· - mimeBeg))
    if isMime mv then
      let o := { o with mime := mv.map toLower }
      match mimeEnd.bind (indexFrom (';' : Byte) str) with
      | none => return .done o
      | some offset => return .next (offset, o)
    else return .done o

def turn (str : Bytes) (s : ℕ × ContentType) : Turn (ℕ × ContentType) (Except Fault ContentType) :=
  View.turn (param str s.1 s.2)

/-- `parse` of an object; `none` when the loop takes more turns than the text has bytes. -/
def parse (o : ContentType) (str : Bytes) : Option (Except Fault ContentType) :=
  match View.turn (parseMime str o) with
  | .done r => some r
  | .next s => Loop.run (turn str) (str.length + 1) s

/-! What the loops over a value leave. -/

/-- A value without its backslashes, up to a quote. -/
def unescaped : Bytes → Bytes
  | [] => []
  | [c] => if c = '"' then [] else [c]
  | c :: d :: s =>
    if c = '"' then []
    else if c = '\\' then d :: unescaped s
    else c :: unescaped (d :: s)

/-- A value without the blanks around it. -/
def trimmed (s : Bytes) : Bytes := (s.dropWhile isHttpLws).rdropWhile isHttpLws

variable {str : Bytes} {n vbeg offset i : ℕ} {o : ContentType} {c : Byte}

theorem lt_length (h : str[i]? = some c) : i < str.length := (List.getElem?_eq_some_iff.1 h).1

theorem trimLeft_eq (h : vbeg + n ≤ str.length) : trimLeft str n vbeg =
    .ok (vbeg + (((str.drop vbeg).take n).takeWhile isHttpLws).length) := by
  induction n generalizing vbeg with
  | zero => simp [trimLeft]
  | succ n ih =>
    have hlt : vbeg < str.length := by omega
    rw [trimLeft, View.get_of_lt hlt, List.drop_eq_getElem_cons hlt, List.take_succ_cons,
      List.takeWhile_cons]
    cases hc : isHttpLws str[vbeg] with
    | false => simp [hc, bind, Except.bind]
    | true =>
      have hrest := @ih (vbeg + 1) (by omega)
      simp only [bind, Except.bind, hc, if_true, hrest, List.length_cons]
      congr 1
      omega

theorem trimRight_eq (h : vbeg + n ≤ str.length) : trimRight str vbeg n =
    .ok (((str.drop vbeg).take n).rdropWhile isHttpLws).length := by
  induction n with
  | zero => simp [trimRight]
  | succ n ih =>
    have hlt : vbeg + n < str.length := by omega
    have htake : (str.drop vbeg).take (n + 1) = (str.drop vbeg).take n ++ [str[vbeg + n]] := by
      rw [List.take_add_one, List.getElem?_drop, List.getElem?_eq_getElem hlt, Option.toList_some]
    rw [trimRight, View.get_of_lt hlt, htake, List.rdropWhile_concat]
    cases hc : isHttpLws str[vbeg + n] with
    | false =>
      have hlen : ((str.drop vbeg).take n).length = n := by
        rw [List.length_take, List.length_drop]
        omega
      simp [hc, bind, Except.bind, hlen]
    | true =>
      have hrest := ih (by omega)
      simp only [bind, Except.bind, hc, if_true, hrest]

theorem unescape_eq (h : vbeg + n ≤ str.length) :
    unescape str n vbeg = .ok (unescaped ((str.drop vbeg).take n)) := by
  fun_induction unescape str n vbeg with
  | case1 vbeg => rfl
  | case2 vbeg =>
    have hlt : vbeg < str.length := by omega
    rw [View.get_of_lt hlt, List.drop_eq_getElem_cons hlt, List.take_succ_cons, List.take_zero,
      unescaped, View.ok_bind]
    split_ifs <;> rfl
  | case3 n vbeg ih1 ih2 =>
    have hlt : vbeg < str.length := by omega
    have hlt' : vbeg + 1 < str.length := by omega
    have h1 := ih1 (by omega)
    have h2 := ih2 (by omega)
    rw [List.drop_eq_getElem_cons hlt', List.take_succ_cons] at h2
    rw [View.get_of_lt hlt, List.drop_eq_getElem_cons hlt, List.take_succ_cons,
      List.drop_eq_getElem_cons hlt', List.take_succ_cons, unescaped]
    simp only [View.ok_bind, View.get_of_lt hlt', h1, h2]
    split_ifs <;> rfl

theorem take_of_prefix {p s : Bytes} (h : p <+: s.take n) : s.take p.length = p :=
  (List.prefix_iff_eq_take.1 (h.trans (List.take_prefix n s))).symm

theorem trim_eq (h : vbeg + n ≤ str.length) : ∃ vbeg' m, vbeg' + m ≤ str.length ∧
    trimLeft str n vbeg = .ok vbeg' ∧ trimRight str vbeg' (vbeg + n - vbeg') = .ok m ∧
      (str.drop vbeg').take m = trimmed ((str.drop vbeg).take n) := by
  set s := (str.drop vbeg).take n with hs
  set k := (s.takeWhile isHttpLws).length with hk
  have hlen : s.length = n := by
    rw [hs, List.length_take, List.length_drop]
    omega
  have hkn : k ≤ n := hlen ▸ (List.takeWhile_prefix _).length_le
  -- what is left after the blanks in front
  have hdrop : (str.drop (vbeg + k)).take (n - k) = s.dropWhile isHttpLws := by
    have hcut : s.drop k = s.dropWhile isHttpLws := by
      conv_lhs => rw [← List.takeWhile_append_dropWhile (p := isHttpLws) (l := s)]
      exact List.drop_left
    rw [← hcut, hs, List.drop_take, List.drop_drop]
  have hpre : trimmed s <+: s.dropWhile isHttpLws := List.rdropWhile_prefix isHttpLws _
  have hm : (trimmed s).length ≤ n - k := by
    have hle := hpre.length_le
    rw [← hdrop, List.length_take] at hle
    omega
  refine ⟨vbeg + k, (trimmed s).length, by omega, trimLeft_eq h, ?_, ?_⟩
  · rw [show vbeg + n - (vbeg + k) = n - k by omega, trimRight_eq (by omega), hdrop, trimmed]
  · rw [← hdrop] at hpre
    exact take_of_prefix hpre

/-- The distance from a position to the next byte of the kind, or to the end. -/
theorem add_getD_sub (h : vbeg ≤ str.length) :
    vbeg + ((indexFrom c str vbeg).getD str.length - vbeg) =
      (indexFrom c str vbeg).getD str.length ∧
    (indexFrom c str vbeg).getD str.length ≤ str.length := by
  cases hi : indexFrom c str vbeg with
  | none =>
    rw [Option.getD_none]
    omega
  | some i =>
    obtain ⟨hle, hc⟩ := indexFrom_some hi
    have hlt := lt_length hc
    rw [Option.getD_some]
    omega

theorem tokenValue_eq (h : vbeg ≤ str.length) : tokenValue str vbeg =
    .ok (((str.drop vbeg).take
        ((indexFrom (';' : Byte) str vbeg).getD str.length - vbeg)).rdropWhile isHttpLws,
      indexFrom (';' : Byte) str vbeg) := by
  obtain ⟨hn, hle⟩ := @add_getD_sub str vbeg ';' h
  rw [tokenValue, trimRight_eq (by omega), View.ok_bind, View.substr_of_le h, View.ok_bind,
    Option.getD_some, take_of_prefix (List.rdropWhile_prefix isHttpLws _)]
  rfl

theorem quotedValue_eq (h : str[offset]? = some ('"' : Byte)) : quotedValue str offset =
    .ok (unescaped (trimmed ((str.drop (offset + 1)).take
        ((indexFrom ('"' : Byte) str (offset + 1)).getD str.length - (offset + 1)))),
      (indexFrom ('"' : Byte) str (offset + 1)).bind (indexFrom (';' : Byte) str)) := by
  have hlt := lt_length h
  obtain ⟨hn, hle⟩ := @add_getD_sub str (offset + 1) '"' hlt
  obtain ⟨vbeg, m, hm, hl, hr, ht⟩ := @trim_eq str _ (offset + 1) (hn.trans_le hle)
  rw [hn] at hr
  rw [quotedValue, View.get_of_eq h, View.ok_bind, View.assert_of_pos rfl, View.ok_bind]
  simp only [hl, hr, View.ok_bind, unescape_eq hm, ht]
  rfl

/-- A value never faults, and what it gives is a `';'` behind it. -/
theorem paramValue_ok (h : str[offset]? = some c) :
    ∃ v next, paramValue str offset = .ok (v, next) ∧
      ∀ j ∈ next, offset ≤ j ∧ str[j]? = some (';' : Byte) := by
  rw [paramValue, View.get_of_eq h, View.ok_bind]
  by_cases hc : c = '"'
  · subst hc
    rw [if_neg (not_not_intro rfl), quotedValue_eq h]
    refine ⟨_, _, rfl, fun j hj => ?_⟩
    obtain ⟨i, hi, hij⟩ := Option.bind_eq_some_iff.1 hj
    obtain ⟨hle, -⟩ := indexFrom_some hi
    obtain ⟨hle', hj⟩ := indexFrom_some hij
    exact ⟨by omega, hj⟩
  · have hlt := lt_length h
    rw [if_pos hc, tokenValue_eq (by omega)]
    exact ⟨_, _, rfl, fun j hj => indexFrom_some hj⟩

/-- A turn never faults, and leads on to a `';'` behind the one it was entered at. -/
theorem param_ok (h : str[offset]? = some (';' : Byte)) :
    (∃ t, param str offset o = .ok (.done t)) ∨
      ∃ i t, param str offset o = .ok (.next (i, t)) ∧ offset < i ∧
        str[i]? = some (';' : Byte) := by
  rw [param, View.get_of_eq h, View.ok_bind, View.assert_of_pos rfl, View.ok_bind]
  cases hb : skipLws str (offset + 1) with
  | none => exact .inl ⟨o, rfl⟩
  | some nameBeg =>
    obtain ⟨hle, -⟩ := findFrom_headIn_some hb
    cases he : Search.findFrom (headIn fun c : Byte => c = ';' || c = '=') str nameBeg with
    | none => exact .inl ⟨o, by simp only [he]; rfl⟩
    | some j =>
      obtain ⟨hj, c, hc, hcc⟩ := findFrom_headIn_some he
      have hjlt := lt_length hc
      simp only [he, View.get_of_eq hc, View.ok_bind]
      by_cases hs : c = ';'
      · subst hs
        exact .inr ⟨j, o, if_pos rfl, by omega, hc⟩
      · have heq : c = '=' := by simpa [hs] using hcc
        rw [if_neg hs, View.substr_of_le (by omega), View.ok_bind, View.assert_of_pos heq,
          View.ok_bind]
        cases hv : skipLws str (j + 1) with
        | none => exact .inl ⟨o, rfl⟩
        | some k =>
          obtain ⟨hk, d, hd, -⟩ := findFrom_headIn_some hv
          obtain ⟨v, next, hval, hnext⟩ := paramValue_ok hd
          simp only [View.get_of_eq hd, View.ok_bind, hval]
          by_cases hds : d = ';'
          · subst hds
            exact .inr ⟨k, o, if_pos rfl, by omega, hd⟩
          · rw [if_neg hds]
            cases next with
            | none => exact .inl ⟨_, rfl⟩
            | some i =>
              obtain ⟨hi, hsemi⟩ := hnext i rfl
              exact .inr ⟨i, _, rfl, by omega, hsemi⟩

theorem parseMime_ok : (∃ t, parseMime str o = .ok (.done t)) ∨
    ∃ i t, parseMime str o = .ok (.next (i, t)) ∧ str[i]? = some (';' : Byte) := by
  rw [parseMime]
  cases hb : skipLws str 0 with
  | none => exact .inl ⟨o, rfl⟩
  | some mimeBeg =>
    obtain ⟨-, c, hc, -⟩ := findFrom_headIn_some hb
    have hlt := lt_length hc
    simp only [View.substr_of_le hlt.le, View.ok_bind]
    split_ifs with hm
    · cases hi : (Search.findFrom (headIn fun c => decide (c ∈ lit " \t;(")) str mimeBeg).bind
          (indexFrom (';' : Byte) str) with
      | none => exact .inl ⟨_, rfl⟩
      | some i =>
        obtain ⟨j, -, hj⟩ := Option.bind_eq_some_iff.1 hi
        exact .inr ⟨i, _, rfl, (indexFrom_some hj).2⟩
    · exact .inl ⟨o, rfl⟩

/-- The parameter loop leaves with an object, on whatever text it was entered at a `';'` of. -/
theorem loop_ok {n : ℕ} (hn : str.length < n + offset) (h : str[offset]? = some (';' : Byte)) :
    ∃ t, Loop.run (turn str) n (offset, o) = some (.ok t) := by
  induction n generalizing offset o with
  | zero =>
    have := lt_length h
    omega
  | succ n ih =>
    obtain ⟨t, ht⟩ | ⟨i, t, ht, hi, hc⟩ := @param_ok str offset o h
    · exact ⟨t, by simp only [Loop.run, turn, ht, View.turn]⟩
    · simp only [Loop.run, turn, ht, View.turn]
      exact ih (by omega) hc

/-- Every text is parsed: the loop terminates, and no read and no assertion fails. -/
theorem parse_total (o : ContentType) (str : Bytes) : ∃ t, parse o str = some (.ok t) := by
  obtain ⟨t, ht⟩ | ⟨i, t, ht, hc⟩ := @parseMime_ok str o
  · exact ⟨t, by simp only [parse, ht, View.turn]⟩
  · simp only [parse, ht, View.turn]
    exact loop_ok (by omega) hc

end Jkl.Http
