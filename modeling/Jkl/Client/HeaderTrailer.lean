import Jkl.Lib.Loop
import Jkl.Lib.Search
import Mathlib.Data.List.Induction

/-! The texts in which `parse_header_trailer` sees the last header and the trailer. The parsers of
`beast` are parameters. -/
namespace Jkl.Client

open Loop (Turn)
open Search (rfindFrom rfindFrom_eq_some rfindFrom_eq_none)

abbrev Bytes := List UInt8

/-- A string literal of the source. -/
def lit (s : String) : Bytes := s.toList.map Char.toUInt8

def crlf2 : Bytes := lit "\r\n\r\n"

inductive BeastErr where
  | needMore
  | badLineEnding
  | other (code : ℕ)
deriving DecidableEq, Repr

variable {η : Type}

/-- One turn of the loop in `parse_fields`: what is left of the text, and the header it adds to.
`parse_field` gives a name, a value and what follows the field. -/
def fieldsTurn (parseField : Bytes → Except BeastErr (Bytes × Bytes × Bytes))
    (insert : η → Bytes → Bytes → η) : Bytes × η → Turn (Bytes × η) (Except BeastErr η)
  | (c :: d :: p, h) =>
    if c = 0x0d then
      if d = 0x0a then .done (.ok h) else .done (.error .badLineEnding)
    else
      match parseField (c :: d :: p) with
      | .error e => .done (.error e)
      | .ok (name, value, rest) => .next (rest, insert h name value)
  | (_, _) => .done (.error .needMore)

/-- At most `n` turns of `parse_fields`. -/
def parseFields (parseField : Bytes → Except BeastErr (Bytes × Bytes × Bytes))
    (insert : η → Bytes → Bytes → η) (n : ℕ) (p : Bytes) (h : η) : Option (Except BeastErr η) :=
  Loop.run (fieldsTurn parseField insert) n (p, h)

/-- The header and the trailer in a text of at least 16 bytes. -/
def headerTrailer (bv : Bytes) : Bytes × Bytes :=
  match rfindFrom crlf2.isPrefixOf bv (bv.length - 5) with
  | none => (bv, [])
  | some q =>
    let t := bv.drop (q + 4)
    if lit "HTTP/" <+: t then (t, [])
    else
      -- `q - 1` wraps around to `npos`
      let pos := if q = 0 then bv.length else q - 1
      match rfindFrom crlf2.isPrefixOf bv pos with
      | some j =>
        -- as does `q - j`
        let n := if q < j then bv.length else q - j
        ((bv.drop (j + 4)).take n, t)
      | none => (bv.take (q + 4), t)

/-- `parse_header_trailer`; `put` is what the header parser makes of a text. -/
def parseHeaderTrailer (put : Bytes → Except BeastErr η)
    (parseField : Bytes → Except BeastErr (Bytes × Bytes × Bytes))
    (insert : η → Bytes → Bytes → η) (n : ℕ) (b : Bytes) : Option (Except BeastErr η) :=
  if b.length < 16 then some (.error .needMore)
  else
    let (header, trailer) := headerTrailer b
    match put header with
    | .error e => some (.error e)
    | .ok h => if trailer = [] then some (.ok h) else parseFields parseField insert n trailer h

/-! Blocks. -/

/-- The text ends with an empty line, and has none before. -/
def EndsOnce (b : Bytes) : Prop :=
  4 ≤ b.length ∧ ∀ i < b.length, crlf2 <+: b.drop i ↔ i + 4 = b.length

def IsHeader (b : Bytes) : Prop := lit "HTTP/" <+: b ∧ EndsOnce b

def IsTrailer (b : Bytes) : Prop :=
  ¬lit "HTTP/" <+: b ∧ b.head? ≠ some 0x0d ∧ EndsOnce b

variable {a b r x : Bytes} {i : ℕ}

instance : Decidable (EndsOnce b) :=
  inferInstanceAs (Decidable (_ ∧ ∀ i < b.length, crlf2 <+: b.drop i ↔ i + 4 = b.length))

instance : Decidable (IsHeader b) := inferInstanceAs (Decidable (_ ∧ _))

instance : Decidable (IsTrailer b) := inferInstanceAs (Decidable (_ ∧ _ ∧ _))

/-- Where an empty line stands, byte by byte. -/
theorem crlf2_prefix_iff : crlf2 <+: x.drop i ↔
    x[i]? = some 0x0d ∧ x[i + 1]? = some 0x0a ∧ x[i + 2]? = some 0x0d ∧ x[i + 3]? = some 0x0a := by
  have h : ∀ y : Bytes, crlf2 <+: y ↔
      y[0]? = some 0x0d ∧ y[1]? = some 0x0a ∧ y[2]? = some 0x0d ∧ y[3]? = some 0x0a := by
    intro y
    have hlit : crlf2 = [0x0d, 0x0a, 0x0d, 0x0a] := rfl
    rw [hlit]
    constructor
    · rintro ⟨t, rfl⟩
      simp
    · intro hy
      rcases y with - | ⟨c, - | ⟨d, - | ⟨e, - | ⟨f, y⟩⟩⟩⟩ <;> simp at hy
      obtain ⟨rfl, rfl, rfl, rfl⟩ := hy
      exact ⟨y, rfl⟩
  simp [h]

theorem add_four_le (h : crlf2 <+: x.drop i) : i + 4 ≤ x.length := by
  have hlast := (crlf2_prefix_iff.1 h).2.2.2
  have := (List.getElem?_eq_some_iff.1 hlast).1
  omega

theorem EndsOnce.last (h : EndsOnce b) : crlf2 <+: b.drop (b.length - 4) :=
  (h.2 _ (by have := h.1; omega)).2 (by have := h.1; omega)

/-- An empty line that starts in a text with one at its end does not reach over that end, unless a
CR follows. -/
theorem add_four_le_left (ha : crlf2 <+: a.drop (a.length - 4)) (hlen : 4 ≤ a.length)
    (hr : r.head? ≠ some 0x0d) (h : crlf2 <+: (a ++ r).drop i) (hi : i < a.length) :
    i + 4 ≤ a.length := by
  have hend : a[a.length - 1]? = some 0x0a := by
    have := (crlf2_prefix_iff.1 ha).2.2.2
    rwa [show a.length - 4 + 3 = a.length - 1 by omega] at this
  obtain ⟨h₀, -, h₂, -⟩ := crlf2_prefix_iff.1 h
  by_contra hn
  -- the end of the text falls between two bytes of the empty line
  obtain hi | hi | hi : i = a.length - 1 ∨ i + 2 = a.length ∨ i + 2 = a.length - 1 := by omega
  · rw [hi, List.getElem?_append_left (by omega), hend] at h₀
    cases h₀
  · rw [hi, List.getElem?_append_right (Nat.le_refl _), Nat.sub_self,
      ← List.head?_eq_getElem?] at h₂
    exact hr h₂
  · rw [hi, List.getElem?_append_left (by omega), hend] at h₂
    cases h₂

theorem prefix_drop_left (h : crlf2 <+: (a ++ r).drop i) (hi : i + 4 ≤ a.length) :
    crlf2 <+: a.drop i := by
  rw [crlf2_prefix_iff] at h ⊢
  rwa [List.getElem?_append_left (by omega), List.getElem?_append_left (by omega),
    List.getElem?_append_left (by omega), List.getElem?_append_left (by omega)] at h

theorem EndsOnce.five_le (h : EndsOnce b) (hcr : b.head? ≠ some 0x0d) : 5 ≤ b.length := by
  have hlen := h.1
  by_contra hn
  have hlast := (crlf2_prefix_iff.1 h.last).1
  rw [show b.length - 4 = 0 by omega, ← List.head?_eq_getElem?] at hlast
  exact hcr hlast

/-- The text so far ends with an empty line, or is empty. -/
def Closed (a : Bytes) : Prop := a = [] ∨ 4 ≤ a.length ∧ crlf2 <+: a.drop (a.length - 4)

/-- The last empty line before that of a block ends what stands in front of the block. -/
theorem rfind_block (ha : Closed a) (hb : EndsOnce b) (hcr : b.head? ≠ some 0x0d) :
    rfindFrom crlf2.isPrefixOf (a ++ b ++ r) ((a ++ b).length - 5) =
      if a = [] then none else some (a.length - 4) := by
  have hblen := hb.five_le hcr
  -- none starts in the block but the one at its end
  have hblock : ∀ j, a.length ≤ j → j ≤ (a ++ b).length - 5 → ¬crlf2 <+: (a ++ b ++ r).drop j := by
    intro j hj hj' hpre
    rw [List.length_append] at hj'
    have hleft := prefix_drop_left hpre (by rw [List.length_append]; omega)
    rw [List.drop_append, List.drop_of_length_le hj, List.nil_append] at hleft
    have hlt := add_four_le hleft
    have := (hb.2 _ (by omega)).1 hleft
    omega
  obtain rfl | ⟨halen, hend⟩ := ha
  · rw [if_pos rfl, rfindFrom_eq_none]
    intro j hj _
    rw [← Bool.not_eq_true, List.isPrefixOf_iff_prefix]
    exact hblock j (Nat.zero_le j) hj
  · have hne : a ≠ [] := by
      rintro rfl
      cases halen
    rw [if_neg hne, rfindFrom_eq_some]
    simp only [List.length_append, List.isPrefixOf_iff_prefix]
    refine ⟨by omega, by omega, ?_, fun j hj hj' _ => ?_⟩
    · rw [List.append_assoc, List.drop_append_of_le_length (by omega)]
      exact hend.trans (List.prefix_append _ _)
    · rw [← Bool.not_eq_true, List.isPrefixOf_iff_prefix]
      by_cases hja : a.length ≤ j
      · exact hblock j hja (by rwa [List.length_append])
      · intro hpre
        rw [List.append_assoc] at hpre
        have hhead : (b ++ r).head? ≠ some 0x0d := by
          have : b ≠ [] := by
            rintro rfl
            cases hblen
          rwa [List.head?_append_of_ne_nil _ this]
        have := add_four_le_left hend halen hhead hpre (by omega)
        omega

theorem EndsOnce.closed (h : EndsOnce b) : Closed (a ++ b) := by
  have := h.1
  refine .inr ⟨by rw [List.length_append]; omega, ?_⟩
  have hdrop : (a ++ b).drop ((a ++ b).length - 4) = b.drop (b.length - 4) := by
    rw [List.length_append, Nat.add_sub_assoc h.1, List.drop_append]
    simp
  rw [hdrop]
  exact h.last

/-! The last header and the trailer. -/

theorem IsHeader.head_ne (h : IsHeader b) : b.head? ≠ some 0x0d := by
  obtain ⟨t, ht⟩ := h.1
  rw [← ht]
  exact fun hc => absurd (Option.some.inj hc) (by decide)

theorem closed_flatten {bs : List Bytes} (h : ∀ b ∈ bs, IsHeader b) : Closed bs.flatten := by
  induction bs using List.reverseRecOn with
  | nil => exact .inl rfl
  | append_singleton bs b ih =>
    rw [List.flatten_concat]
    exact (h b (by simp)).2.closed

theorem headerTrailer_header (ha : Closed a) (hb : IsHeader b) :
    headerTrailer (a ++ b) = (b, []) := by
  have hfind := @rfind_block a b [] ha hb.2 hb.head_ne
  rw [List.append_nil] at hfind
  unfold headerTrailer
  rw [hfind]
  obtain rfl | ⟨hlen, -⟩ := ha
  · rfl
  · have hne : a ≠ [] := by
      rintro rfl
      cases hlen
    have hdrop : (a ++ b).drop (a.length - 4 + 4) = b := by
      rw [Nat.sub_add_cancel hlen, List.drop_left]
    simp only [hne, if_false, hdrop, hb.1, if_true]

theorem headerTrailer_trailer {t : Bytes} (ha : Closed a) (hb : IsHeader b) (ht : IsTrailer t) :
    headerTrailer (a ++ b ++ t) = (b, t) := by
  have hblen := hb.2.five_le hb.head_ne
  have hfind := @rfind_block (a ++ b) t [] hb.2.closed ht.2.2 ht.2.1
  have hne : a ++ b ≠ [] := by
    intro h
    rw [(List.append_eq_nil_iff.1 h).2] at hblen
    cases hblen
  rw [List.append_nil, if_neg hne] at hfind
  have hlen : 5 ≤ (a ++ b).length := by
    rw [List.length_append]
    omega
  have hdrop : (a ++ b ++ t).drop ((a ++ b).length - 4 + 4) = t := by
    rw [Nat.sub_add_cancel (by omega), List.drop_left]
  have hpos : (if (a ++ b).length - 4 = 0 then (a ++ b ++ t).length else (a ++ b).length - 4 - 1) =
      (a ++ b).length - 5 := by
    rw [if_neg (by omega)]
    omega
  unfold headerTrailer
  simp only [hfind, hdrop, ht.1, if_false, hpos, rfind_block ha hb.2 hb.head_ne]
  obtain rfl | ⟨halen, -⟩ := ha
  · simp only [if_true]
    rw [Nat.sub_add_cancel (by omega), List.take_left]
    rfl
  · have hne : a ≠ [] := by
      rintro rfl
      cases halen
    have hcount : (if (a ++ b).length - 4 < a.length - 4 then (a ++ b ++ t).length
        else (a ++ b).length - 4 - (a.length - 4)) = b.length := by
      rw [List.length_append, if_neg (by omega)]
      omega
    simp only [hne, if_false, hcount]
    rw [Nat.sub_add_cancel halen, List.append_assoc, List.drop_left, List.take_left]

/-- Of header blocks and at most one trailer block behind them the header parser is handed the last
header, and `parse_fields` the trailer if there is one. -/
theorem parseHeaderTrailer_last (put : Bytes → Except BeastErr η)
    (parseField : Bytes → Except BeastErr (Bytes × Bytes × Bytes))
    (insert : η → Bytes → Bytes → η) (n : ℕ) (headers : List Bytes) (last : Bytes)
    (trailer : Option Bytes) (hheaders : ∀ b ∈ headers ++ [last], IsHeader b)
    (htrailer : ∀ t ∈ trailer, IsTrailer t)
    (hlen : 16 ≤ ((headers ++ [last]).flatten ++ trailer.getD []).length) :
    parseHeaderTrailer put parseField insert n
        ((headers ++ [last]).flatten ++ trailer.getD []) =
      match put last with
      | .error e => some (.error e)
      | .ok h => trailer.elim (some (.ok h)) fun t => parseFields parseField insert n t h := by
  have hlast : IsHeader last := hheaders last (by simp)
  have hclosed : Closed headers.flatten :=
    closed_flatten fun b hb => hheaders b (List.mem_append_left _ hb)
  unfold parseHeaderTrailer
  rw [if_neg (by omega), List.flatten_concat]
  cases trailer with
  | none =>
    simp only [Option.getD_none, List.append_nil, headerTrailer_header hclosed hlast, if_true]
    rfl
  | some t =>
    have ht : IsTrailer t := htrailer t rfl
    have hne : t ≠ [] := by
      rintro rfl
      cases ht.2.2.1
    simp only [Option.getD_some, headerTrailer_trailer hclosed hlast ht, hne, if_false]
    rfl

theorem parseHeaderTrailer_redirect :
    parseHeaderTrailer (fun t => .ok [t]) (fun p => .ok (p, [], lit "\r\n"))
        (fun h name _ => h ++ [name]) 2
        (lit "HTTP/1.1 302\r\nA: b\r\n\r\nHTTP/\r\n\r\nx\r\n\r\n") =
      some (.ok [lit "HTTP/\r\n\r\n", lit "x\r\n\r\n"]) :=
  parseHeaderTrailer_last (fun t => .ok [t]) (fun p => .ok (p, [], lit "\r\n"))
    (fun h name _ => h ++ [name]) 2 [lit "HTTP/1.1 302\r\nA: b\r\n\r\n"]
    (lit "HTTP/\r\n\r\n") (some (lit "x\r\n\r\n")) (by decide +kernel)
    (by rintro t ⟨⟩; decide +kernel) (by decide +kernel)

end Jkl.Client
