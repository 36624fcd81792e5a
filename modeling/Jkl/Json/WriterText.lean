import Jkl.Json.Writer
import Jkl.Uri.Digits

/-! What `json_writer` writes is a JSON text of the tree it was used for. -/
namespace Jkl.Json

open JsonText (Text Value isSpace isDigit decimal value elements members decode Follows follows_nil
  follows_cons)
open Jkl.Pb (CInt)
open Jkl.Uri (Num digits digits_ne_nil digits_head isDigit_of_mem_digits digitsVal_digits)

/-! The tree that is meant. -/

def Prim.value : Prim → Value
  | null => .null
  | bool v => .bool v
  | int _ n _ => .int n
  | str v => .str v.1
  | noescape v => .str v.1

mutual
def Node.value : Node → Value
  | .obj ms => .obj ms.pairs
  | .arr es => .arr es.values
def Members.pairs : Members → List (Text × Value)
  | .nil => []
  | .pa k v ms => (k.text.1, v.value) :: ms.pairs
  | .add k t ms => (k.text.1, t.value) :: ms.pairs
def Elems.values : Elems → List Value
  | .nil => []
  | .elm v es => v.value :: es.values
  | .add t es => t.value :: es.values
end

variable {x rest : Text} {w : Value} {n : ℕ}

/-- With enough fuel, `x` is read as the value `w` in front of anything that may follow. -/
def Reads (x : Text) (w : Value) : Prop :=
  ∀ n rest, x.length ≤ n → Follows rest → JsonText.value n (x ++ rest) = some (w, rest)

/-- It starts neither with space nor with a bracket that closes an array. -/
def Starts (x : Text) : Prop := ∃ c s, x = c :: s ∧ isSpace c = false ∧ c ≠ ']'

/-! Values that are no writers. -/

theorem reads_of_scalar {c : UInt8} {s : Text} (hspace : isSpace c = false)
    (hc : c ≠ '"' ∧ c ≠ '[' ∧ c ≠ '{')
    (h : ∀ rest, Follows rest → JsonText.scalar (c :: s ++ rest) = some (w, rest)) :
    Reads (c :: s) w := by
  intro n rest hn hrest
  cases n with
  | zero => simp at hn
  | succ n => exact JsonText.value_scalar hspace hc.1 hc.2.1 hc.2.2 (h rest hrest)

theorem reads_quoted (v : Clean) : Reads (quoted v) (.str v.1) := by
  intro n rest hn _
  cases n with
  | zero => simp [quoted] at hn
  | succ n =>
    have hstring := @string_clean rest v
    rw [← List.singleton_append, ← List.append_assoc] at hstring
    exact JsonText.value_str hstring

theorem starts_quoted (v : Text) : Starts (quoted v) := ⟨_, _, rfl, by decide, by decide⟩

/-- A digit is nothing else that a value may begin with. -/
theorem digit_cases {c : UInt8} (h : isDigit c = true) : isSpace c = false ∧ c ≠ ']' ∧
    (c ≠ '"' ∧ c ≠ '[' ∧ c ≠ '{') ∧ c ≠ 'n' ∧ c ≠ 't' ∧ c ≠ 'f' := by
  have hne : ∀ d, isDigit d = false → c ≠ d := by
    rintro d hd rfl
    rw [h] at hd
    cases hd
  have hspace : isSpace c = false := by
    by_contra hc
    simp only [isSpace, Bool.not_eq_false, Bool.or_eq_true, decide_eq_true_eq] at hc
    obtain ((hc | hc) | hc) | hc := hc
    · exact hne _ (by decide) hc
    · exact hne _ (by decide) hc
    · exact hne _ (by decide) hc
    · exact hne _ (by decide) hc
  exact ⟨hspace, hne _ (by decide), ⟨hne _ (by decide), hne _ (by decide), hne _ (by decide)⟩,
    hne _ (by decide), hne _ (by decide), hne _ (by decide)⟩

theorem decimal_digits (k : ℕ) : decimal (digits k) = k := digitsVal_digits

theorem digits_zero {k : ℕ} (h : (digits k).head? = some ('0' : UInt8)) :
    (digits k).length = 1 := by
  rw [digits_head h]
  rfl

theorem reads_digits (k : ℕ) : Reads (digits k) (.int k) ∧ Starts (digits k) := by
  have hdigit : ∀ c ∈ digits k, isDigit c = true := fun c hc => isDigit_of_mem_digits hc
  have hnumber : ∀ rest, Follows rest →
      JsonText.number (digits k ++ rest) = some (.int (decimal (digits k)), rest) :=
    fun rest hrest => JsonText.number_natural digits_ne_nil hdigit digits_zero hrest
  rw [decimal_digits] at hnumber
  obtain ⟨c, s, hs⟩ := List.exists_cons_of_ne_nil (@digits_ne_nil k)
  rw [hs] at hdigit hnumber ⊢
  obtain ⟨hspace, hclose, hvalue, hn, ht, hf⟩ := digit_cases (hdigit c List.mem_cons_self)
  refine ⟨reads_of_scalar hspace hvalue fun rest hrest => ?_, ⟨c, s, rfl, hspace, hclose⟩⟩
  rw [List.cons_append, JsonText.scalar_number hn ht hf]
  exact hnumber rest hrest

theorem reads_minus (k : ℕ) : Reads (('-' : UInt8) :: digits k) (.int (-k)) := by
  have hdigit : ∀ c ∈ digits k, isDigit c = true := fun c hc => isDigit_of_mem_digits hc
  refine reads_of_scalar (by decide) (by decide) fun rest hrest => ?_
  rw [List.cons_append, JsonText.scalar_number (by decide) (by decide) (by decide),
    JsonText.number_minus digits_ne_nil hdigit digits_zero hrest, decimal_digits]

theorem reads_prim (v : Prim) : Reads v.text v.value ∧ Starts v.text := by
  cases v with
  | null =>
    exact ⟨reads_of_scalar (by decide) (by decide) fun _ _ => JsonText.scalar_null,
      ⟨_, _, rfl, by decide, by decide⟩⟩
  | bool v =>
    cases v with
    | true =>
      exact ⟨reads_of_scalar (by decide) (by decide) fun _ _ => JsonText.scalar_bool true,
        ⟨_, _, rfl, by decide, by decide⟩⟩
    | false =>
      exact ⟨reads_of_scalar (by decide) (by decide) fun _ _ => JsonText.scalar_bool false,
        ⟨_, _, rfl, by decide, by decide⟩⟩
  | int ty n h =>
    by_cases hneg : n < 0
    · have htext : Prim.text (.int ty n h) = ('-' : UInt8) :: digits n.natAbs := if_pos hneg
      have hval : n = -(n.natAbs : ℤ) := by omega
      rw [htext, Prim.value]
      refine ⟨?_, ⟨_, _, rfl, by decide, by decide⟩⟩
      have := reads_minus n.natAbs
      rwa [← hval] at this
    · have htext : Prim.text (.int ty n h) = digits n.natAbs := if_neg hneg
      have hval : n = (n.natAbs : ℤ) := by omega
      have := reads_digits n.natAbs
      rw [← hval] at this
      rw [htext, Prim.value]
      exact this
  | str v => exact ⟨reads_quoted v, starts_quoted v.1⟩
  | noescape v => exact ⟨reads_quoted v, starts_quoted v.1⟩

/-! Members and elements. The comma behind the last one is not there any more. -/

/-- What follows an item when the items behind it have the text `s`. -/
def tailOf (s : Text) (close : UInt8) (rest : Text) : Text :=
  if s = [] then close :: rest else (',' : UInt8) :: (s.dropLast ++ close :: rest)

theorem dropLast_item {s : Text} {close : UInt8} :
    (x ++ (',' : UInt8) :: s).dropLast ++ close :: rest = x ++ tailOf s close rest := by
  unfold tailOf
  split_ifs with hs
  · rw [hs, List.dropLast_concat]
  · rw [List.dropLast_append_of_ne_nil (List.cons_ne_nil _ _), List.dropLast_cons_of_ne_nil hs,
      List.append_assoc, List.cons_append]

theorem follows_tailOf {s : Text} {close : UInt8} (h : close = ']' ∨ close = '}') :
    Follows (tailOf s close rest) := by
  unfold tailOf
  split_ifs
  · exact follows_cons.2 (.inr h)
  · exact follows_cons.2 (.inl rfl)

theorem members_step {k : Clean} {s : Text} {ms : List (Text × Value)} (hx : Reads x w)
    (hn : (quoted k ++ (':' : UInt8) :: (x ++ (',' : UInt8) :: s)).length ≤ n)
    (hnil : s = [] → ms = [])
    (hs : ∀ m, s.length ≤ m → s ≠ [] →
      members m (s.dropLast ++ ('}' : UInt8) :: rest) = some (ms, rest)) :
    members n ((quoted k ++ (':' : UInt8) :: (x ++ (',' : UInt8) :: s)).dropLast ++
      ('}' : UInt8) :: rest) = some ((k.1, w) :: ms, rest) := by
  have hsplit : quoted k ++ (':' : UInt8) :: (x ++ (',' : UInt8) :: s) =
      (quoted k ++ (':' : UInt8) :: x) ++ (',' : UInt8) :: s := by simp
  have htext : (quoted k ++ (':' : UInt8) :: x) ++ tailOf s '}' rest =
      ('"' : UInt8) :: (k.1 ++ ('"' : UInt8) :: (':' : UInt8) :: (x ++ tailOf s '}' rest)) := by
    simp [quoted]
  rw [hsplit, dropLast_item, htext]
  simp only [List.length_append, List.length_cons] at hn
  cases n with
  | zero => omega
  | succ n =>
    have hname := JsonText.name_quote
      (@string_clean ((':' : UInt8) :: (x ++ tailOf s '}' rest)) k)
    have hvalue := hx n (tailOf s '}' rest) (by omega) (follows_tailOf (.inr rfl))
    by_cases h : s = []
    · rw [tailOf, if_pos h] at hname hvalue ⊢
      rw [hnil h]
      exact JsonText.members_last hname hvalue
    · rw [tailOf, if_neg h] at hname hvalue ⊢
      exact JsonText.members_cons hname hvalue (hs n (by omega) h)

theorem elements_step {s : Text} {es : List Value} (hx : Reads x w)
    (hn : (x ++ (',' : UInt8) :: s).length ≤ n) (hnil : s = [] → es = [])
    (hs : ∀ m, s.length ≤ m → s ≠ [] →
      elements m (s.dropLast ++ (']' : UInt8) :: rest) = some (es, rest)) :
    elements n ((x ++ (',' : UInt8) :: s).dropLast ++ (']' : UInt8) :: rest) =
      some (w :: es, rest) := by
  rw [dropLast_item]
  simp only [List.length_append, List.length_cons] at hn
  cases n with
  | zero => omega
  | succ n =>
    have hvalue := hx n (tailOf s ']' rest) (by omega) (follows_tailOf (.inl rfl))
    by_cases h : s = []
    · rw [tailOf, if_pos h] at hvalue ⊢
      rw [hnil h]
      exact JsonText.elements_last hvalue
    · rw [tailOf, if_neg h] at hvalue ⊢
      exact JsonText.elements_cons hvalue (hs n (by omega) h)

theorem text_members_eq_nil {ms : Members} (h : ms.text = []) : ms = .nil := by
  cases ms with
  | nil => rfl
  | pa k v ms => simp [Members.text, quoted] at h
  | add k t ms => simp [Members.text, quoted] at h

theorem text_elems_eq_nil {es : Elems} (h : es.text = []) : es = .nil := by
  cases es with
  | nil => rfl
  | elm v es => simp [Elems.text] at h
  | add t es => simp [Elems.text] at h

theorem starts_node (t : Node) : Starts t.text := by
  cases t with
  | obj ms => exact ⟨_, _, by rw [Node.text], by decide, by decide⟩
  | arr es => exact ⟨_, _, by rw [Node.text], by decide, by decide⟩

theorem head_members {ms : Members} (h : ms ≠ .nil) :
    ∃ s, ms.text.dropLast ++ ('}' : UInt8) :: rest = ('"' : UInt8) :: s := by
  have hitem : ∀ (k : Text) (x s : Text), ∃ s',
      (quoted k ++ (':' : UInt8) :: (x ++ (',' : UInt8) :: s)).dropLast ++ ('}' : UInt8) :: rest =
        ('"' : UInt8) :: s' := by
    intro k x s
    have hsplit : quoted k ++ (':' : UInt8) :: (x ++ (',' : UInt8) :: s) =
        (quoted k ++ (':' : UInt8) :: x) ++ (',' : UInt8) :: s := by simp
    rw [hsplit, dropLast_item]
    exact ⟨_, rfl⟩
  cases ms with
  | nil => exact absurd rfl h
  | pa k v ms =>
    rw [Members.text]
    exact hitem _ _ _
  | add k t ms =>
    rw [Members.text]
    exact hitem _ _ _

theorem head_elems {es : Elems} (h : es ≠ .nil) :
    Starts (es.text.dropLast ++ (']' : UInt8) :: rest) := by
  have hitem : ∀ x s : Text, Starts x →
      Starts ((x ++ (',' : UInt8) :: s).dropLast ++ (']' : UInt8) :: rest) := by
    rintro x s ⟨c, t, rfl, hspace, hc⟩
    rw [dropLast_item]
    exact ⟨c, _, rfl, hspace, hc⟩
  cases es with
  | nil => exact absurd rfl h
  | elm v es =>
    rw [Elems.text]
    exact hitem _ _ (reads_prim v).2
  | add t es =>
    rw [Elems.text]
    exact hitem _ _ (starts_node t)

/-! Trees. -/

theorem length_le_of_enclosed {s : Text} {close : UInt8} (hs : s ≠ [])
    (h : (s.dropLast.length + [close].length) + 1 ≤ n + 1) : s.length ≤ n := by
  have hpos := List.length_pos_iff.2 hs
  rw [List.length_dropLast, List.length_singleton] at h
  omega

mutual
theorem reads_node : (t : Node) → Reads t.text t.value
  | .obj ms => by
    intro n rest hn _
    rw [Node.text, List.length_cons, List.length_append] at hn
    rw [Node.text, Node.value, List.cons_append, List.append_assoc, List.singleton_append]
    cases n with
    | zero => omega
    | succ n =>
      by_cases hms : ms = .nil
      · rw [hms, Members.text, Members.pairs]
        exact JsonText.value_obj_nil
      · have htext : ms.text ≠ [] := fun h => hms (text_members_eq_nil h)
        have hmembers := reads_members ms n rest (length_le_of_enclosed htext hn) htext
        obtain ⟨s, hs⟩ := @head_members rest ms hms
        rw [hs] at hmembers ⊢
        exact JsonText.value_obj (by decide) (by decide) hmembers
  | .arr es => by
    intro n rest hn _
    rw [Node.text, List.length_cons, List.length_append] at hn
    rw [Node.text, Node.value, List.cons_append, List.append_assoc, List.singleton_append]
    cases n with
    | zero => omega
    | succ n =>
      by_cases hes : es = .nil
      · rw [hes, Elems.text, Elems.values]
        exact JsonText.value_arr_nil
      · have htext : es.text ≠ [] := fun h => hes (text_elems_eq_nil h)
        have helements := reads_elems es n rest (length_le_of_enclosed htext hn) htext
        obtain ⟨c, s, hs, hspace, hc⟩ := @head_elems rest es hes
        rw [hs] at helements ⊢
        exact JsonText.value_arr hspace hc helements
theorem reads_members : (ms : Members) → ∀ n rest, ms.text.length ≤ n → ms.text ≠ [] →
    members n (ms.text.dropLast ++ ('}' : UInt8) :: rest) = some (ms.pairs, rest)
  | .nil => fun _ _ _ h => absurd rfl h
  | .pa k v ms => by
    intro n rest hn _
    rw [Members.text] at hn ⊢
    rw [Members.pairs]
    refine members_step (reads_prim v).1 hn (fun h => ?_) fun m hm h => reads_members ms m rest hm h
    rw [text_members_eq_nil h, Members.pairs]
  | .add k t ms => by
    intro n rest hn _
    rw [Members.text] at hn ⊢
    rw [Members.pairs]
    refine members_step (reads_node t) hn (fun h => ?_) fun m hm h => reads_members ms m rest hm h
    rw [text_members_eq_nil h, Members.pairs]
theorem reads_elems : (es : Elems) → ∀ n rest, es.text.length ≤ n → es.text ≠ [] →
    elements n (es.text.dropLast ++ (']' : UInt8) :: rest) = some (es.values, rest)
  | .nil => fun _ _ _ h => absurd rfl h
  | .elm v es => by
    intro n rest hn _
    rw [Elems.text] at hn ⊢
    rw [Elems.values]
    refine elements_step (reads_prim v).1 hn (fun h => ?_) fun m hm h => reads_elems es m rest hm h
    rw [text_elems_eq_nil h, Elems.values]
  | .add t es => by
    intro n rest hn _
    rw [Elems.text] at hn ⊢
    rw [Elems.values]
    refine elements_step (reads_node t) hn (fun h => ?_) fun m hm h => reads_elems es m rest hm h
    rw [text_elems_eq_nil h, Elems.values]
end

/-- The text of a tree of writers is a JSON text for it. -/
theorem decode_text (t : Node) : decode t.text = some t.value := by
  have h := reads_node t t.text.length [] le_rfl follows_nil
  rw [List.append_nil] at h
  exact JsonText.decode_of_value h

variable {W : WriterType} {b b' : Text} {t : Node}

/-- What the writers are for: behind what the buffer held, a JSON text that denotes the tree. -/
def WritesTree (W : WriterType) (b : Text) (t : Node) : Prop :=
  ∃ text, writeTree W b t = .ok (b ++ text) ∧ decode text = some t.value

theorem room_of_writeTree (h : writeTree W b t = .ok b') : b.length ≤ W.buf.maxSize := by
  obtain ⟨r, hconstruct, -⟩ := bind_eq_ok.1 h
  obtain ⟨b₁, happend, -⟩ := bind_eq_ok.1 hconstruct
  unfold BufType.append at happend
  split_ifs at happend with hroom
  omega

/-- A tree is written if no string and no key goes through `write_jstr`, no assertion of
`stringify` fails, and there is room. -/
theorem json_writer_iff (W : WriterType) (b : Text) (t : Node) :
    WritesTree W b t ↔ t.Writable W ∧ b.length + t.text.length ≤ W.buf.maxSize := by
  constructor
  · rintro ⟨text, hwrite, -⟩
    obtain ⟨hw, hroom, -⟩ := (puts_writeTree t b _ (room_of_writeTree hwrite)).1 hwrite
    exact ⟨hw, hroom⟩
  · rintro ⟨hw, hroom⟩
    have hb : b.length ≤ W.buf.maxSize := by omega
    exact ⟨t.text, (puts_writeTree t b _ hb).2 ⟨hw, hroom, rfl⟩, decode_text t⟩

/-- `{"a":"b"}`, with the member written by `pa`. -/
theorem not_writesTree_ab : ¬WritesTree ⟨⟨2 ^ 63 - 1, by decide, 0⟩, true, false⟩ []
    (.obj (.pa ⟨⟨['a'], List.forall_mem_singleton.2 rfl⟩, false⟩
      (.str ⟨['b'], List.forall_mem_singleton.2 rfl⟩) .nil)) := by
  rintro ⟨text, hwrite, -⟩
  obtain ⟨hw, -⟩ := (puts_writeTree _ [] _ (Nat.zero_le _)).1 hwrite
  simp [Node.Writable, Members.Writable, Prim.Writable] at hw

end Jkl.Json
