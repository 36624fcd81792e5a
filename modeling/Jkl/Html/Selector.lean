import Jkl.Lib.Cut
import Jkl.Lib.Search
import Jkl.Lib.View
import Jkl.Uri.Types

/-! `html_simple_sel::parse`, with every read of the selector checked. -/
namespace Jkl.Html

open Loop (Turn)
open Search (findFrom headIn findFrom_at findFrom_end indexFrom_at indexFrom_end)
open Uri (Byte Bytes lit)
open View (Fault)

variable {τ : Type}

/-- `GumboTag`; `last` stands for any tag. -/
inductive GumboTag (τ : Type) where
  | known (t : τ)
  | unknown
  | last
deriving DecidableEq

structure SimpleSel (τ : Type) where
  tag : GumboTag τ := .last
  attrs : List (Bytes × Bytes) := []
deriving DecidableEq

/-- `attrs.emplace_back(k, v)`. -/
def SimpleSel.add (o : SimpleSel τ) (k v : Bytes) : SimpleSel τ :=
  { o with attrs := o.attrs ++ [(k, v)] }

/-- `find_first_of(".# ", pos)`. -/
def findSep (sel : Bytes) (pos : ℕ) : Option ℕ := findFrom (headIn fun c => c ∈ lit ".# ") sel pos

/-- The key of the part at `i`, and where its value is looked for; nothing when it is empty. -/
def findKey (sel : Bytes) (i : ℕ) : Except Fault (Option (Bytes × Option ℕ)) := do
  let c ← View.get sel i
  if c = '.' then return some (lit "class", some (i + 1))
  else if c = '#' then return some (lit "id", some (i + 1))
  else
    let j := findFrom (headIn fun c => c ∈ lit "=.# ") sel (i + 1)
    if j = some (i + 1) then return none
    else
      let k ← View.substr sel (i + 1) (j.map (· - (i + 1)))
      return some (k, j)

/-- The value at `i`, and where the next part is. -/
def findValue (sel : Bytes) (i : ℕ) : Except Fault (Bytes × Option ℕ) := do
  let q ← View.get sel i
  if q = '"' ∨ q = '\'' then
    let j := Search.indexFrom q sel (i + 1)
    let v ← View.substr sel (i + 1) (j.map (· - (i + 1)))
    return (v, j.bind (findSep sel))
  else
    let j := findSep sel i
    let v ← View.substr sel i (j.map (· - i))
    return (v, j)

/-- One turn of the loop, at a part. -/
def part (sel : Bytes) (i : ℕ) (o : SimpleSel τ) :
    Except Fault (Turn (Option ℕ × SimpleSel τ) (Bool × SimpleSel τ)) := do
  match ← findKey sel i with
  | none => return .done (false, o)
  -- `sel[npos]`
  | some (_, none) => .error .index
  | some (k, some i) =>
    let (v, j) ← findValue sel i
    return .next (j, o.add k v)

/-- The loop as long as `i < sel.size()`, where `none` is `npos`. -/
def turn (sel : Bytes) :
    Option ℕ × SimpleSel τ → Turn (Option ℕ × SimpleSel τ) (Except Fault (Bool × SimpleSel τ))
  | (none, o) => .done (.ok (true, o))
  | (some i, o) => if i < sel.length then View.turn (part sel i o) else .done (.ok (true, o))

/-- What is done in front of the loop; `toTag` is `_g_to_tag`. -/
def parseTag (toTag : Bytes → GumboTag τ) (sel : Bytes) (o : SimpleSel τ) :
    Except Fault (Turn (Option ℕ × SimpleSel τ) (Bool × SimpleSel τ)) := do
  if sel = [] then return .done (false, o)
  else if (← View.get sel 0) = '*' then return .next (some 1, { o with tag := .last })
  else
    let i := findSep sel 0
    match toTag (← View.substr sel 0 i) with
    | .unknown => return .done (false, { o with tag := .unknown })
    | t => return .next (i, { o with tag := t })

/-- `parse` of an object; `none` when the loop takes more turns than the text has bytes. -/
def parse (toTag : Bytes → GumboTag τ) (o : SimpleSel τ) (sel : Bytes) :
    Option (Except Fault (Bool × SimpleSel τ)) :=
  match View.turn (parseTag toTag sel o) with
  | .done r => some r
  | .next s => Loop.run (turn sel) (sel.length + 2) s

/-! How a text is cut. -/

/-- The name that a separator stands for. -/
def shorthand (c : Byte) : Bytes := if c = '.' then lit "class" else lit "id"

/-- The first part of a text as the code cuts it: what is read of it, and what is left, which is
nothing or starts with a separator. -/
inductive FirstPart : Bytes → Bytes × Bytes → Bytes → Prop
  | value {c : Byte} {v w : Bytes} (hc : c ∈ lit ".#") (hv : ∀ x ∈ v, x ∉ lit ".# ")
      (hquote : ∀ x, (v ++ w).head? = some x → x ∉ lit "\"'") (hne : v ++ w ≠ [])
      (hw : ∀ x, w.head? = some x → x ∈ lit ".# ") : FirstPart (c :: (v ++ w)) (shorthand c, v) w
  | quoted {c q : Byte} {v u w : Bytes} (hc : c ∈ lit ".#") (hq : q ∈ lit "\"'") (hv : q ∉ v)
      (hu : ∀ x ∈ u, x ∉ lit ".# ") (hw : ∀ x, w.head? = some x → x ∈ lit ".# ") :
      FirstPart (c :: q :: (v ++ q :: (u ++ w))) (shorthand c, v) w
  | unclosed {c q : Byte} {v : Bytes} (hc : c ∈ lit ".#") (hq : q ∈ lit "\"'") (hv : q ∉ v) :
      FirstPart (c :: q :: v) (shorthand c, v) []
  | attr {c : Byte} {k v w : Bytes} (hc : c ∉ lit ".#") (hk : ∀ x ∈ k, x ∉ lit "=.# ")
      (hkne : k ≠ []) (hv : ∀ x ∈ v, x ∉ lit ".# ")
      (hhead : ∀ x, (v ++ w).head? = some x → x ∈ lit "=.# ") (hne : v ++ w ≠ [])
      (hw : ∀ x, w.head? = some x → x ∈ lit ".# ") : FirstPart (c :: (k ++ (v ++ w))) (k, v) w

/-- Cut part by part, the text ends in an unfinished one: a lone mark, or a name and nothing behind
it. -/
inductive Unfinished : Bytes → Prop
  | mark {c : Byte} (hc : c ∈ lit ".#") : Unfinished [c]
  | name {c : Byte} {k : Bytes} (hc : c ∉ lit ".#") (hk : ∀ x ∈ k, x ∉ lit "=.# ") :
      Unfinished (c :: k)
  | cut {w rest : Bytes} {kv : Bytes × Bytes} (h : FirstPart w kv rest) (hr : Unfinished rest) :
      Unfinished w

theorem exists_span (l r : Bytes) : ∃ v w, r = v ++ w ∧ (∀ x ∈ v, x ∉ l) ∧
    ∀ x, w.head? = some x → x ∈ l := by
  refine ⟨_, _, (Cut.findFirstOf_append (p := fun c => decide (c ∈ l))).symm, ?_, ?_⟩
  · intro x hx
    simpa using Cut.not_stop_of_mem hx
  · intro x hx
    simpa using Cut.stop_of_head hx

/-- A text is cut, or it is an unfinished part, or it starts with an empty name. -/
theorem firstPart_or {c : Byte} {w : Bytes} : (c ∈ lit ".#" ∧ w = []) ∨
    (c ∉ lit ".#" ∧ ∀ x ∈ w, x ∉ lit "=.# ") ∨
    (c ∉ lit ".#" ∧ ∃ x, w.head? = some x ∧ x ∈ lit "=.# ") ∨
    ∃ kv rest, FirstPart (c :: w) kv rest := by
  by_cases hc : c ∈ lit ".#"
  · cases w with
    | nil => exact .inl ⟨hc, rfl⟩
    | cons q w =>
      refine .inr (.inr (.inr ?_))
      by_cases hq : q ∈ lit "\"'"
      · by_cases hqw : q ∈ w
        · obtain ⟨v, r, rfl, hv⟩ := List.eq_append_cons_of_mem hqw
          obtain ⟨u, r, rfl, hu, hr⟩ := exists_span (lit ".# ") r
          exact ⟨_, _, .quoted hc hq hv hu hr⟩
        · exact ⟨_, _, .unclosed hc hq hqw⟩
      · obtain ⟨v, r, hvr, hv, hr⟩ := exists_span (lit ".# ") (q :: w)
        rw [hvr]
        refine ⟨_, _, .value hc hv (fun x hx => ?_) (by simp [← hvr]) hr⟩
        rw [← hvr] at hx
        cases hx
        exact hq
  · obtain ⟨k, r, rfl, hk, hr⟩ := exists_span (lit "=.# ") w
    cases r with
    | nil =>
      rw [List.append_nil]
      exact .inr (.inl ⟨hc, hk⟩)
    | cons d r =>
      cases k with
      | nil => exact .inr (.inr (.inl ⟨hc, d, rfl, hr d rfl⟩))
      | cons x k =>
        obtain ⟨v, w, hvw, hv, hw⟩ := exists_span (lit ".# ") (d :: r)
        rw [hvw]
        refine .inr (.inr (.inr ⟨_, _, .attr hc hk (by simp) hv (fun y hy => ?_) ?_ hw⟩))
        · rw [← hvw] at hy
          exact hr y hy
        · simp [← hvw]

/-! The turn at each kind of text. -/

variable {sel t w rest u v : Bytes} {i : ℕ} {o : SimpleSel τ} {c : Byte} {kv : Bytes × Bytes}

/-- Where the loop goes on. -/
def nextPart (rest : Bytes) (i : ℕ) : Option ℕ := if rest = [] then none else some i

theorem findSep_at (hs : sel = t ++ v ++ w) (hi : i = t.length) (hv : ∀ x ∈ v, x ∉ lit ".# ")
    (hw : ∀ x, w.head? = some x → x ∈ lit ".# ") :
    findSep sel i = nextPart w (i + v.length) := by
  have hv' : ∀ x ∈ v, decide (x ∈ lit ".# ") = false := fun x hx => decide_eq_false (hv x hx)
  cases w with
  | nil => exact findFrom_end (hs.trans (List.append_nil _)) hi hv'
  | cons c w => exact findFrom_at hs hi hv' (decide_eq_true (hw c rfl))

theorem substr_nextPart (hs : sel = t ++ v ++ w) (hi : i = t.length) :
    View.substr sel i ((nextPart w (i + v.length)).map (· - i)) = .ok v := by
  cases w with
  | nil => exact View.substr_end (hs.trans (List.append_nil _)) hi
  | cons c w => exact View.substr_at hs hi (Nat.add_sub_cancel_left i v.length)

theorem findKey_mark (hs : sel = t ++ c :: w) (hi : i = t.length) (hc : c ∈ lit ".#") :
    findKey sel i = .ok (some (shorthand c, some (i + 1))) := by
  have hmark : c = '.' ∨ c = '#' := by simpa [lit] using hc
  rw [findKey, View.get_at hs hi, View.ok_bind, shorthand]
  obtain rfl | rfl := hmark
  · rfl
  · rfl

/-- The key of another part: up to a `'='` or a separator, and empty there is none. -/
theorem findKey_name (hs : sel = t ++ c :: (v ++ w)) (hi : i = t.length) (hc : c ∉ lit ".#")
    (hv : ∀ x ∈ v, x ∉ lit "=.# ") (hw : ∀ x, w.head? = some x → x ∈ lit "=.# ") :
    findKey sel i = .ok (if v = [] ∧ w ≠ [] then none
      else some (v, nextPart w (i + 1 + v.length))) := by
  have hs' : sel = (t ++ [c]) ++ v ++ w := by simp [hs]
  have hi' : i + 1 = (t ++ [c]).length := by simp [hi]
  have hv' : ∀ x ∈ v, decide (x ∈ lit "=.# ") = false := fun x hx => decide_eq_false (hv x hx)
  have hdot : c ≠ '.' := by
    rintro rfl
    exact hc (by decide)
  have hhash : c ≠ '#' := by
    rintro rfl
    exact hc (by decide)
  have hend : findFrom (headIn fun c => decide (c ∈ lit "=.# ")) sel (i + 1) =
      nextPart w (i + 1 + v.length) := by
    cases w with
    | nil => exact findFrom_end (hs'.trans (List.append_nil _)) hi' hv'
    | cons d w => exact findFrom_at hs' hi' hv' (decide_eq_true (hw d rfl))
  rw [findKey, View.get_at hs hi, View.ok_bind, if_neg hdot, if_neg hhash]
  simp only [hend, substr_nextPart hs' hi', View.ok_bind]
  by_cases h : v = [] ∧ w ≠ []
  · rw [if_pos h, nextPart, if_neg h.2, h.1]
    exact if_pos rfl
  · rw [if_neg h, if_neg]
    · rfl
    · intro heq
      rw [nextPart] at heq
      split_ifs at heq with hw
      have hlen := Option.some.inj heq
      exact h ⟨List.length_eq_zero_iff.1 (by omega), hw⟩

/-- A value without quotes. -/
theorem findValue_plain (hs : sel = t ++ v ++ w) (hi : i = t.length) (hne : v ++ w ≠ [])
    (hquote : ∀ x, (v ++ w).head? = some x → x ∉ lit "\"'") (hv : ∀ x ∈ v, x ∉ lit ".# ")
    (hw : ∀ x, w.head? = some x → x ∈ lit ".# ") :
    findValue sel i = .ok (v, nextPart w (i + v.length)) := by
  obtain ⟨q, r, hq⟩ := List.exists_cons_of_ne_nil hne
  have hget : View.get sel i = .ok q := View.get_at (b := r) (by rw [hs, List.append_assoc, hq]) hi
  have hnot : ¬(q = '"' ∨ q = '\'') := by
    have hmem := hquote q (by rw [hq]; rfl)
    rintro (rfl | rfl)
    · exact hmem (by decide)
    · exact hmem (by decide)
  rw [findValue, hget, View.ok_bind, if_neg hnot]
  simp only [findSep_at hs hi hv hw, substr_nextPart hs hi, View.ok_bind]
  rfl

/-- A value in quotes, and what stands behind them up to the next separator. -/
theorem findValue_quoted {q : Byte} (hs : sel = t ++ q :: (v ++ q :: (u ++ w))) (hi : i = t.length)
    (hq : q ∈ lit "\"'") (hv : q ∉ v) (hu : ∀ x ∈ u, x ∉ lit ".# ")
    (hw : ∀ x, w.head? = some x → x ∈ lit ".# ") :
    findValue sel i = .ok (v, nextPart w (i + 1 + v.length + 1 + u.length)) := by
  have hquote : q = '"' ∨ q = '\'' := by simpa [lit] using hq
  have hs' : sel = (t ++ [q]) ++ v ++ q :: (u ++ w) := by simp [hs]
  have hi' : i + 1 = (t ++ [q]).length := by simp [hi]
  have hsep : q ∉ lit ".# " := by
    obtain rfl | rfl := hquote
    · decide
    · decide
  have hs'' : sel = (t ++ q :: v) ++ (q :: u) ++ w := by simp [hs]
  have hnext := findSep_at (i := i + 1 + v.length) hs'' (by simp [hi]; omega)
    (by simpa [hsep] using hu) hw
  have hend : i + 1 + v.length + (q :: u).length = i + 1 + v.length + 1 + u.length := by
    rw [List.length_cons]
    omega
  have hval := View.substr_at hs' hi' (Nat.add_sub_cancel_left (i + 1) v.length)
  rw [findValue, View.get_at hs hi, View.ok_bind, if_pos hquote]
  simp only [indexFrom_at hs' hi' hv, Option.map_some, hval, View.ok_bind, Option.bind_some, hnext,
    hend]
  rfl

theorem findValue_unclosed {q : Byte} (hs : sel = t ++ q :: v) (hi : i = t.length)
    (hq : q ∈ lit "\"'") (hv : q ∉ v) : findValue sel i = .ok (v, none) := by
  have hquote : q = '"' ∨ q = '\'' := by simpa [lit] using hq
  have hs' : sel = (t ++ [q]) ++ v := by simp [hs]
  have hi' : i + 1 = (t ++ [q]).length := by simp [hi]
  rw [findValue, View.get_at hs hi, View.ok_bind, if_pos hquote]
  simp only [indexFrom_end hs' hi' hv, Option.map_none, View.substr_end hs' hi', View.ok_bind]
  rfl

theorem not_quote_of_stop (h : c ∈ lit "=.# ") : c ∉ lit "\"'" := by
  have hall : ((lit "=.# ").all fun x => decide (x ∉ lit "\"'")) = true := by decide
  exact of_decide_eq_true (List.all_eq_true.1 hall c h)

theorem not_sep_of_quote (h : c ∈ lit "\"'") : c ∉ lit ".# " := by
  have hall : ((lit "\"'").all fun x => decide (x ∉ lit ".# ")) = true := by decide
  exact of_decide_eq_true (List.all_eq_true.1 hall c h)

theorem mem_stop_of_sep (h : c ∈ lit ".# ") : c ∈ lit "=.# " := List.mem_cons_of_mem _ h

theorem part_mark (hs : sel = t ++ [c]) (hi : i = t.length) (hc : c ∈ lit ".#") :
    part sel i o = .error .index := by
  have hend : View.get sel (i + 1) = .error .index := View.get_of_le (by simp [hs, hi])
  rw [part, findKey_mark hs hi hc, View.ok_bind]
  simp only [findValue, hend]
  rfl

theorem part_name (hs : sel = t ++ c :: w) (hi : i = t.length) (hc : c ∉ lit ".#")
    (hw : ∀ x ∈ w, x ∉ lit "=.# ") : part sel i o = .error .index := by
  have hs' : sel = t ++ c :: (w ++ []) := by rw [hs, List.append_nil]
  have hkey := findKey_name hs' hi hc hw (by simp)
  rw [if_neg fun h => h.2 rfl] at hkey
  rw [part, hkey]
  rfl

theorem part_empty {x : Byte} (hs : sel = t ++ c :: w) (hi : i = t.length) (hc : c ∉ lit ".#")
    (hw : w.head? = some x) (hx : x ∈ lit "=.# ") : part sel i o = .ok (.done (false, o)) := by
  have hne : w ≠ [] := by
    rintro rfl
    cases hw
  have hkey := findKey_name (v := []) hs hi hc (by simp) fun y hy => by
    rw [hw] at hy
    cases hy
    exact hx
  rw [if_pos ⟨rfl, hne⟩] at hkey
  rw [part, hkey]
  rfl

theorem part_of_findKey {k : Bytes} {j : ℕ} {n : Option ℕ}
    (hk : findKey sel i = .ok (some (k, some j))) (hv : findValue sel j = .ok (v, n)) :
    part sel i o = .ok (.next (n, o.add k v)) := by
  rw [part, hk, View.ok_bind]
  simp only [hv, View.ok_bind]
  rfl

/-- The turn at a part that is cut, one case for each kind of it. -/
theorem part_first (h : FirstPart w kv rest) (hs : sel = t ++ w) (hi : i = t.length) :
    ∃ p, w = p ++ rest ∧ p ≠ [] ∧
      part sel i o = .ok (.next (nextPart rest (t ++ p).length, o.add kv.1 kv.2)) := by
  cases h with
  | @value c v w hc hv hquote hne hw =>
    have hs' : sel = (t ++ [c]) ++ v ++ rest := by simp [hs]
    have hval := findValue_plain (i := i + 1) hs' (by simp [hi]) hne hquote hv hw
    refine ⟨c :: v, rfl, by simp, ?_⟩
    rw [part_of_findKey (findKey_mark hs hi hc) hval, hi]
    simp only [List.length_append, List.length_cons]
    congr 4
    omega
  | @quoted c q v u w hc hq hv hu hw =>
    have hs' : sel = (t ++ [c]) ++ q :: (v ++ q :: (u ++ rest)) := by simp [hs]
    have hval := findValue_quoted (i := i + 1) hs' (by simp [hi]) hq hv hu hw
    refine ⟨c :: q :: (v ++ q :: u), by simp, by simp, ?_⟩
    rw [part_of_findKey (findKey_mark hs hi hc) hval, hi]
    simp only [List.length_append, List.length_cons]
    congr 4
    omega
  | @unclosed c q v hc hq hv =>
    have hs' : sel = (t ++ [c]) ++ q :: v := by simp [hs]
    have hval := findValue_unclosed (i := i + 1) hs' (by simp [hi]) hq hv
    refine ⟨c :: q :: v, by simp, by simp, ?_⟩
    exact part_of_findKey (findKey_mark hs hi hc) hval
  | @attr c k v w hc hk hkne hv hhead hne hw =>
    have hs' : sel = (t ++ c :: k) ++ v ++ rest := by simp [hs]
    have hkey := findKey_name hs hi hc hk hhead
    rw [if_neg fun h => hkne h.1, nextPart, if_neg hne] at hkey
    have hquote : ∀ x, (v ++ rest).head? = some x → x ∉ lit "\"'" := fun x hx =>
      not_quote_of_stop (hhead x hx)
    have hval := findValue_plain (i := i + 1 + k.length) hs' (by simp [hi]; omega) hne hquote hv hw
    refine ⟨c :: (k ++ v), by simp, by simp, ?_⟩
    rw [part_of_findKey hkey hval, hi]
    simp only [List.length_append, List.length_cons]
    congr 4
    omega

/-! The loop. -/

variable {r : Bool × SimpleSel τ} {o' : SimpleSel τ} {b : Bool}

theorem turn_eq (hs : sel = t ++ w) (hi : i = t.length) (hw : w ≠ []) :
    turn sel (some i, o) = View.turn (part sel i o) := by
  have hlt : i < sel.length := by
    have := List.length_pos_iff.2 hw
    rw [hs, hi, List.length_append]
    omega
  exact if_pos hlt

theorem FirstPart.ne_nil (h : FirstPart w kv rest) : w ≠ [] := by
  cases h <;> simp

theorem Unfinished.ne_nil (h : Unfinished w) : w ≠ [] := by
  cases h with
  | mark => simp
  | name => simp
  | cut h => exact h.ne_nil

theorem turn_first (h : FirstPart w kv rest) (hs : sel = t ++ w) (hi : i = t.length) :
    ∃ p, w = p ++ rest ∧ p ≠ [] ∧
      turn sel (some i, o) = .next (nextPart rest (t ++ p).length, o.add kv.1 kv.2) := by
  obtain ⟨p, hp, hne, hpart⟩ := part_first (o := o) h hs hi
  refine ⟨p, hp, hne, ?_⟩
  rw [turn_eq hs hi h.ne_nil, hpart]
  rfl

/-- The loop breaks off with a fault in a text that ends in an unfinished part. -/
theorem ends_fault (h : Unfinished w) (hs : sel = t ++ w) (hi : i = t.length) :
    Loop.Ends (turn sel) (some i, o) (.error .index) := by
  induction h generalizing t i o with
  | mark hc =>
    refine .done ?_
    rw [turn_eq hs hi (by simp), part_mark hs hi hc]
    rfl
  | name hc hk =>
    refine .done ?_
    rw [turn_eq hs hi (by simp), part_name hs hi hc hk]
    rfl
  | @cut w rest kv h hr ih =>
    obtain ⟨p, rfl, -, hturn⟩ := turn_first (o := o) h hs hi
    rw [nextPart, if_neg hr.ne_nil] at hturn
    exact .next hturn (ih (by rw [hs, List.append_assoc]) rfl)

/-- In every other text it leaves. -/
theorem run_or {n : ℕ} (hs : sel = t ++ w) (hi : i = t.length) (hn : w.length < n) :
    (∃ r, Loop.run (turn sel) n (some i, o) = some (.ok r)) ∨ Unfinished w := by
  induction n generalizing t w i o with
  | zero => omega
  | succ n ih =>
    cases w with
    | nil =>
      have hturn : turn sel (some i, o) = .done (.ok (true, o)) := if_neg (by simp [hs, hi])
      exact .inl ⟨_, by rw [Loop.run, hturn]⟩
    | cons c w =>
      obtain ⟨hc, rfl⟩ | ⟨hc, hw⟩ | ⟨hc, x, hx, hstop⟩ | ⟨kv, rest, h⟩ := @firstPart_or c w
      · exact .inr (.mark hc)
      · exact .inr (.name hc hw)
      · have hturn : turn sel (some i, o) = .done (.ok (false, o)) := by
          rw [turn_eq hs hi (by simp), part_empty hs hi hc hx hstop]
          rfl
        exact .inl ⟨_, by rw [Loop.run, hturn]⟩
      · obtain ⟨p, hp, hne, hturn⟩ := turn_first (o := o) h hs hi
        have hlen := congrArg List.length hp
        have hpos := List.length_pos_iff.2 hne
        rw [List.length_append, List.length_cons] at hlen
        rw [List.length_cons] at hn
        rw [hp, ← List.append_assoc] at hs
        rw [Loop.run, hturn]
        by_cases hr : rest = []
        · rw [nextPart, if_pos hr]
          obtain ⟨m, rfl⟩ := Nat.exists_eq_add_of_lt (show 0 < n by omega)
          exact .inl ⟨(true, _), rfl⟩
        · rw [nextPart, if_neg hr]
          obtain hrun | hun := @ih (t ++ p) rest _ (o.add kv.1 kv.2) hs rfl (by omega)
          · exact .inl hrun
          · exact .inr (.cut h hun)

/-- The loop is entered, and what it runs over ends in an unfinished part. -/
def Breaks (toTag : Bytes → GumboTag τ) (sel : Bytes) : Prop :=
  (∃ w, sel = ('*' : Byte) :: w ∧ Unfinished w) ∨
    (sel.head? ≠ some ('*' : Byte) ∧ ∃ n w, sel = n ++ w ∧ (∀ x ∈ n, x ∉ lit ".# ") ∧
      toTag n ≠ .unknown ∧ (∀ x, w.head? = some x → x ∈ lit ".# ") ∧ Unfinished w)

variable {toTag : Bytes → GumboTag τ}

theorem loop_ok_iff {n : ℕ} (hs : sel = t ++ w) (hi : i = t.length) (hn : w.length < n) :
    (∃ r, Loop.run (turn sel) n (some i, o) = some (.ok r)) ↔ ¬Unfinished w := by
  constructor
  · rintro ⟨r, hr⟩ h
    cases (Loop.ends_of_run hr).unique (ends_fault h hs hi)
  · exact (run_or hs hi hn).resolve_right

/-- At the end of the text the loop leaves as it does at `npos`. -/
theorem run_nextPart {n : ℕ} (hs : sel = t ++ w) (hi : i = t.length) (hn : 0 < n) :
    Loop.run (turn sel) n (nextPart w i, o) = Loop.run (turn sel) n (some i, o) := by
  by_cases hw : w = []
  · have hend : ¬i < sel.length := by simp [hs, hi, hw]
    have hturn : turn sel (some i, o) = .done (.ok (true, o)) := if_neg hend
    obtain ⟨m, rfl⟩ := Nat.exists_eq_add_of_lt hn
    rw [nextPart, if_pos hw, Loop.run, Loop.run, hturn]
    rfl
  · rw [nextPart, if_neg hw]

/-- The tag is the text in front of the first separator. -/
theorem parseTag_name (hs : sel = v ++ w) (hne : sel ≠ []) (hstar : sel.head? ≠ some ('*' : Byte))
    (hv : ∀ x ∈ v, x ∉ lit ".# ") (hw : ∀ x, w.head? = some x → x ∈ lit ".# ") :
    parseTag toTag sel o = match toTag v with
      | .unknown => .ok (.done (false, { o with tag := .unknown }))
      | t => .ok (.next (nextPart w v.length, { o with tag := t })) := by
  obtain ⟨c, r, hc⟩ := List.exists_cons_of_ne_nil hne
  have hs' : sel = [] ++ v ++ w := hs
  have hget : View.get sel 0 = .ok c := View.get_at (t := []) hc rfl
  have hcs : c ≠ '*' := by
    rintro rfl
    exact hstar (by rw [hc]; rfl)
  have hsep := findSep_at (i := 0) hs' rfl hv hw
  have hsub := substr_nextPart (i := 0) hs' rfl
  rw [Nat.zero_add] at hsep hsub
  have hmap : (nextPart w v.length).map (· - 0) = nextPart w v.length := by
    simp
  rw [hmap] at hsub
  rw [parseTag, if_neg hne, hget, View.ok_bind, if_neg hcs]
  simp only [hsep, hsub, View.ok_bind]
  rfl

theorem parse_unknown (hs : sel = v ++ w) (hne : sel ≠ []) (hstar : sel.head? ≠ some ('*' : Byte))
    (hv : ∀ x ∈ v, x ∉ lit ".# ") (hw : ∀ x, w.head? = some x → x ∈ lit ".# ")
    (ht : toTag v = .unknown) :
    parse toTag o sel = some (.ok (false, { o with tag := .unknown })) := by
  have htag := @parseTag_name _ sel w v o toTag hs hne hstar hv hw
  rw [ht] at htag
  rw [parse, htag]
  rfl

theorem parse_known (hs : sel = v ++ w) (hne : sel ≠ []) (hstar : sel.head? ≠ some ('*' : Byte))
    (hv : ∀ x ∈ v, x ∉ lit ".# ") (hw : ∀ x, w.head? = some x → x ∈ lit ".# ")
    (ht : toTag v ≠ .unknown) : parse toTag o sel =
      Loop.run (turn sel) (sel.length + 2) (some v.length, { o with tag := toTag v }) := by
  have htag := @parseTag_name _ sel w v o toTag hs hne hstar hv hw
  rw [← run_nextPart hs rfl (Nat.succ_pos _), parse, htag]
  cases h : toTag v with
  | unknown => exact absurd h ht
  | known a => rfl
  | last => rfl

theorem span_unique {l n v w u : Bytes} (h : n ++ u = v ++ w) (hn : ∀ x ∈ n, x ∉ l)
    (hu : ∀ x, u.head? = some x → x ∈ l) (hv : ∀ x ∈ v, x ∉ l)
    (hw : ∀ x, w.head? = some x → x ∈ l) : n = v ∧ u = w := by
  have h1 := @Cut.findFirstOf_eq _ (fun c => decide (c ∈ l)) n u
    (fun x hx => decide_eq_false (hn x hx)) fun x hx => decide_eq_true (hu x hx)
  have h2 := @Cut.findFirstOf_eq _ (fun c => decide (c ∈ l)) v w
    (fun x hx => decide_eq_false (hv x hx)) fun x hx => decide_eq_true (hw x hx)
  rw [h, h2] at h1
  exact ⟨(congrArg Prod.fst h1).symm, (congrArg Prod.snd h1).symm⟩

theorem breaks_star_iff : Breaks toTag (('*' : Byte) :: w) ↔ Unfinished w := by
  constructor
  · rintro (⟨u, hu, h⟩ | ⟨hne, -⟩)
    · cases hu
      exact h
    · exact absurd rfl hne
  · exact fun h => .inl ⟨w, rfl, h⟩

theorem breaks_name_iff (hs : sel = v ++ w) (hstar : sel.head? ≠ some ('*' : Byte))
    (hv : ∀ x ∈ v, x ∉ lit ".# ") (hw : ∀ x, w.head? = some x → x ∈ lit ".# ") :
    Breaks toTag sel ↔ toTag v ≠ .unknown ∧ Unfinished w := by
  constructor
  · rintro (⟨u, rfl, -⟩ | ⟨-, n, u, hnu, hn, ht, hu, h⟩)
    · exact absurd rfl hstar
    · obtain ⟨rfl, rfl⟩ := span_unique (hnu.symm.trans hs) hn hu hv hw
      exact ⟨ht, h⟩
  · exact fun h => .inr ⟨hstar, v, w, hs, hv, h.1, hw, h.2⟩

/-- The parse returns, without a read outside the selector, unless the selector breaks it. -/
theorem parse_ok_iff : (∃ r, parse toTag o sel = some (.ok r)) ↔ ¬Breaks toTag sel := by
  by_cases hstar : sel.head? = some ('*' : Byte)
  · obtain ⟨w, rfl⟩ := List.head?_eq_some_iff.1 hstar
    rw [breaks_star_iff]
    exact loop_ok_iff (t := [('*' : Byte)]) (n := w.length + 3) rfl rfl (by omega)
  · obtain ⟨v, w, hvw, hv, hw⟩ := exists_span (lit ".# ") sel
    rw [breaks_name_iff hvw hstar hv hw]
    by_cases hne : sel = []
    · have hw' : w = [] := (List.append_eq_nil_iff.1 (hvw.symm.trans hne)).2
      subst hne
      exact iff_of_true ⟨_, rfl⟩ fun h => h.2.ne_nil hw'
    · by_cases ht : toTag v = .unknown
      · rw [parse_unknown hvw hne hstar hv hw ht]
        exact iff_of_true ⟨_, rfl⟩ fun h => h.1 ht
      · have hlen : w.length < sel.length + 2 := by
          rw [hvw, List.length_append]
          omega
        rw [parse_known hvw hne hstar hv hw ht, loop_ok_iff hvw rfl hlen]
        exact ⟨fun h h' => h h'.2, fun h h' => h ⟨ht, h'⟩⟩

end Jkl.Html
