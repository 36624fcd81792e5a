import Jkl.Html.Selector

/-! Selectors that follow the grammar, and which of them are parsed to the pairs they list. -/
namespace Jkl.Html

open Loop (Turn)
open Uri (Byte Bytes lit)

variable {τ : Type} {toTag : Bytes → GumboTag τ}


/-- A value, in quotes or without. -/
inductive SelValue where
  | plain (s : Bytes) (hne : s ≠ []) (hsep : ∀ x ∈ s, x ∉ lit ".# ")
      (hquote : ∀ x, s.head? = some x → x ∉ lit "\"'")
  | quoted (q : Byte) (s : Bytes) (hq : q ∈ lit "\"'") (hs : q ∉ s)

namespace SelValue

def text : SelValue → Bytes
  | plain s _ _ _ => s
  | quoted q s _ _ => q :: (s ++ [q])

def val : SelValue → Bytes
  | plain s _ _ _ => s
  | quoted _ s _ _ => s

end SelValue

/-- `.class`, `#id`, and ` attr` with or without a value. -/
inductive SelPart where
  | cls (v : SelValue)
  | id (v : SelValue)
  | attr (k : Bytes) (v : Option SelValue) (hne : k ≠ []) (hk : ∀ x ∈ k, x ∉ lit "=.# ")

namespace SelPart

def text : SelPart → Bytes
  | cls v => ('.' : Byte) :: v.text
  | id v => ('#' : Byte) :: v.text
  | attr k v _ _ => (' ' : Byte) :: (k ++ v.elim [] fun v => ('=' : Byte) :: v.text)

def pair : SelPart → Bytes × Bytes
  | cls v => (lit "class", v.val)
  | id v => (lit "id", v.val)
  | attr k v _ _ => (k, v.elim [] SelValue.val)

end SelPart

/-- No part has the form ` attr=value`, and the last one is not an ` attr`. -/
def Readable : List SelPart → Prop
  | [] => True
  | .attr _ v _ _ :: ps => v.isNone ∧ ps ≠ [] ∧ Readable ps
  | _ :: ps => Readable ps

/-- `'*'`, or the name of a known tag. -/
inductive SelTag (toTag : Bytes → GumboTag τ) where
  | any
  | named (n : Bytes) (t : τ) (hne : n ≠ []) (hstar : n.head? ≠ some ('*' : Byte))
      (hsep : ∀ x ∈ n, x ∉ lit ".# ") (ht : toTag n = .known t)

namespace SelTag

def text : SelTag toTag → Bytes
  | any => ['*']
  | named n _ _ _ _ _ => n

def tag : SelTag toTag → GumboTag τ
  | any => .last
  | named _ t _ _ _ _ => .known t

end SelTag

structure Selector (toTag : Bytes → GumboTag τ) where
  tag : SelTag toTag
  parts : List SelPart

namespace Selector

variable (s : Selector toTag)

def text : Bytes := s.tag.text ++ s.parts.flatMap SelPart.text

/-- What the selector is to be parsed to. -/
def listed : SimpleSel τ := ⟨s.tag.tag, s.parts.map SelPart.pair⟩

end Selector

variable {sel t w v : Bytes} {c : Byte} {i : ℕ} {b : Bool} {o o' : SimpleSel τ}
  {r : Bool × SimpleSel τ} {p : SelPart} {ps : List SelPart}

theorem head_parts {x : Byte} (hx : (ps.flatMap SelPart.text).head? = some x) : x ∈ lit ".# " := by
  cases ps with
  | nil => cases hx
  | cons p ps =>
    cases p with
    | cls v =>
      cases hx
      decide
    | id v =>
      cases hx
      decide
    | attr k v =>
      cases hx
      decide

theorem firstPart_value {sv : SelValue} (hc : c ∈ lit ".#")
    (hw : ∀ x, w.head? = some x → x ∈ lit ".# ") :
    FirstPart (c :: (sv.text ++ w)) (shorthand c, sv.val) w := by
  cases sv with
  | plain s hne hsep hquote =>
    have hhead : ∀ x, (s ++ w).head? = some x → x ∉ lit "\"'" := by
      intro x hx
      rw [List.head?_append_of_ne_nil _ hne] at hx
      exact hquote x hx
    have hne' : s ++ w ≠ [] := by simp [hne]
    exact .value hc hsep hhead hne' hw
  | quoted q s hq hs =>
    have h := FirstPart.quoted (u := []) hc hq hs (by simp) hw
    simpa [SelValue.text, SelValue.val] using h

theorem length_le_of_span {a b : Bytes} (h : a ++ b = v ++ w) (ha : ∀ x ∈ a, x ∉ lit ".# ")
    (hw : ∀ x, w.head? = some x → x ∈ lit ".# ") : a.length ≤ v.length := by
  obtain ⟨u, rfl, -⟩ | ⟨u, rfl, hu⟩ := List.append_eq_append_iff.1 h
  · simp
  · cases u with
    | nil => simp
    | cons x u => exact absurd (hw x (by rw [hu]; rfl)) (ha x (by simp))

/-- With a value behind it, the `'='` is taken for a part of the value, and a quote is not seen. -/
theorem firstPart_attr {k : Bytes} {sv : SelValue} (hne : k ≠ []) (hk : ∀ x ∈ k, x ∉ lit "=.# ") :
    ∃ v rest, FirstPart ((' ' : Byte) :: (k ++ (('=' : Byte) :: sv.text ++ w))) (k, v) rest ∧
      v ≠ sv.val := by
  obtain ⟨v, rest, hvr, hv, hrest⟩ := exists_span (lit ".# ") (('=' : Byte) :: sv.text ++ w)
  refine ⟨v, rest, ?_, ?_⟩
  · rw [hvr]
    refine .attr (by decide) hk hne hv (fun x hx => ?_) (by simp [← hvr]) hrest
    rw [← hvr] at hx
    cases hx
    decide
  · intro heq
    have heqsep : ('=' : Byte) ∉ lit ".# " := by decide
    cases sv with
    | plain s hne' hsep hquote =>
      obtain rfl : v = s := heq
      have hlen := length_le_of_span (a := ('=' : Byte) :: v) hvr (by simpa [heqsep] using hv) hrest
      rw [List.length_cons] at hlen
      omega
    | quoted q s hq hs =>
      obtain rfl : v = s := heq
      have hqsep : q ∉ lit ".# " := not_sep_of_quote hq
      have hvr' : ('=' : Byte) :: q :: v ++ q :: w = v ++ rest := by
        rw [← hvr]
        simp [SelValue.text]
      have hlen := length_le_of_span hvr' (by simpa [heqsep, hqsep] using hv) hrest
      rw [List.length_cons, List.length_cons] at hlen
      omega

/-! What the loop adds. -/

theorem part_add {r : Turn (Option ℕ × SimpleSel τ) (Bool × SimpleSel τ)}
    (h : part sel i o = .ok r) :
    (∃ n k v, r = .next (n, o.add k v)) ∨ r = .done (false, o) := by
  rw [part] at h
  cases hk : findKey sel i with
  | error e =>
    rw [hk] at h
    cases h
  | ok key =>
    rw [hk, View.ok_bind] at h
    cases key with
    | none =>
      cases h
      exact .inr rfl
    | some key =>
      obtain ⟨k, _ | j⟩ := key
      · cases h
      · cases hv : findValue sel j with
        | error e =>
          simp only [hv] at h
          cases h
        | ok value =>
          simp only [hv, View.ok_bind] at h
          cases h
          exact .inl ⟨_, _, _, rfl⟩

theorem turn_cases (s : Option ℕ × SimpleSel τ) :
    (∃ n k v, turn sel s = .next (n, s.2.add k v)) ∨ (∃ b, turn sel s = .done (.ok (b, s.2))) ∨
      ∃ e, turn sel s = .done (.error e) := by
  obtain ⟨_ | i, o⟩ := s
  · exact .inr (.inl ⟨true, rfl⟩)
  · by_cases hi : i < sel.length
    · have hturn : turn sel (some i, o) = View.turn (part sel i o) := if_pos hi
      rw [hturn]
      cases hp : part sel i o with
      | error e => exact .inr (.inr ⟨e, rfl⟩)
      | ok r =>
        obtain ⟨n, k, v, rfl⟩ | rfl := part_add hp
        · exact .inl ⟨n, k, v, rfl⟩
        · exact .inr (.inl ⟨false, rfl⟩)
    · exact .inr (.inl ⟨true, if_neg hi⟩)

/-- The loop only adds to the pairs. -/
theorem ends_attrs {s : Option ℕ × SimpleSel τ} (h : Loop.Ends (turn sel) s (.ok (b, o'))) :
    s.2.attrs <+: o'.attrs := by
  refine h.invariant (fun u => s.2.attrs <+: u.2.attrs)
    (fun r => ∀ b o', r = .ok (b, o') → s.2.attrs <+: o'.attrs) (List.prefix_refl _) ?_ ?_ b o' rfl
  · intro u u' hu hnext
    obtain ⟨n, k, v, ht⟩ | ⟨b, ht⟩ | ⟨e, ht⟩ := @turn_cases τ sel u
    · cases ht.symm.trans hnext
      exact hu.trans (List.prefix_append _ _)
    · cases ht.symm.trans hnext
    · cases ht.symm.trans hnext
  · rintro u r hu hdone b o' rfl
    obtain ⟨n, k, v, ht⟩ | ⟨b, ht⟩ | ⟨e, ht⟩ := @turn_cases τ sel u
    · cases ht.symm.trans hdone
    · cases ht.symm.trans hdone
      exact hu
    · cases ht.symm.trans hdone

def SimpleSel.addAll (o : SimpleSel τ) (ps : List SelPart) : SimpleSel τ :=
  { o with attrs := o.attrs ++ ps.map SelPart.pair }

theorem addAll_cons : o.addAll (p :: ps) = (o.add p.pair.1 p.pair.2).addAll ps := by
  simp [SimpleSel.addAll, SimpleSel.add]

/-- A part that is cut to its own pair is a step towards the rest. -/
theorem ends_cons_iff (h : FirstPart (p.text ++ ps.flatMap SelPart.text) p.pair
      (ps.flatMap SelPart.text))
    (hs : sel = t ++ (p.text ++ ps.flatMap SelPart.text)) :
    Loop.Ends (turn sel) (some t.length, o) (.ok (true, o.addAll (p :: ps))) ↔
      Loop.Ends (turn sel) (nextPart (ps.flatMap SelPart.text) (t ++ p.text).length,
        o.add p.pair.1 p.pair.2) (.ok (true, (o.add p.pair.1 p.pair.2).addAll ps)) := by
  obtain ⟨u, hu, -, hturn⟩ := turn_first (o := o) h hs rfl
  rw [← List.append_cancel_right hu] at hturn
  rw [Loop.ends_iff_of_next hturn, addAll_cons]

/-- Another part behind it ends the name of an ` attr`. -/
theorem firstPart_name {k : Bytes} {hne : k ≠ []} {hk : ∀ x ∈ k, x ∉ lit "=.# "} (hw : w ≠ [])
    (hhead : ∀ x, w.head? = some x → x ∈ lit ".# ") :
    FirstPart (SelPart.text (.attr k none hne hk) ++ w) (k, []) w := by
  have htext : SelPart.text (.attr k none hne hk) ++ w = (' ' : Byte) :: (k ++ ([] ++ w)) := by
    simp [SelPart.text]
  rw [htext]
  exact .attr (by decide) hk hne (by simp) (fun x hx => mem_stop_of_sep (hhead x hx)) hw hhead

/-- The name runs to the end of the selector. -/
theorem not_ends_name {k : Bytes} {hne : k ≠ []} {hk : ∀ x ∈ k, x ∉ lit "=.# "}
    (hs : sel = t ++ SelPart.text (.attr k none hne hk)) :
    ¬Loop.Ends (turn sel) (some t.length, o) (.ok r) := by
  intro hends
  have hun : Unfinished (SelPart.text (.attr k none hne hk)) :=
    .name (by decide) (by simpa using hk)
  cases hends.unique (ends_fault hun hs rfl)

/-- What is added for an ` attr=value` is not what it lists. -/
theorem not_ends_attr {k : Bytes} {sv : SelValue} {hne : k ≠ []} {hk : ∀ x ∈ k, x ∉ lit "=.# "}
    (hs : sel = t ++ (SelPart.text (.attr k (some sv) hne hk) ++ w)) :
    ¬Loop.Ends (turn sel) (some t.length, o)
      (.ok (b, o.addAll (.attr k (some sv) hne hk :: ps))) := by
  intro hends
  have hcut : ∃ v rest, FirstPart ((' ' : Byte) :: (k ++ (('=' : Byte) :: sv.text ++ w)))
      (k, v) rest ∧ v ≠ sv.val := firstPart_attr hne hk
  obtain ⟨v, rest, hfirst, hval⟩ := hcut
  have hs' : sel = t ++ (' ' : Byte) :: (k ++ (('=' : Byte) :: sv.text ++ w)) := by
    rw [hs]
    simp [SelPart.text]
  obtain ⟨u, -, -, hturn⟩ := turn_first (o := o) hfirst hs' rfl
  have hattrs : o.attrs ++ [(k, v)] <+: o.attrs ++ (k, sv.val) :: ps.map SelPart.pair :=
    ends_attrs ((Loop.ends_iff_of_next hturn).1 hends)
  rw [List.prefix_append_right_inj, List.cons_prefix_cons] at hattrs
  exact hval (congrArg Prod.snd hattrs.1)

theorem parts_ne_nil (h : ps ≠ []) : ps.flatMap SelPart.text ≠ [] := by
  obtain ⟨q, qs, rfl⟩ := List.exists_cons_of_ne_nil h
  cases q <;> simp [SelPart.text]

/-- The loop over the parts, by induction along them. -/
theorem ends_parts_iff (hs : sel = t ++ ps.flatMap SelPart.text) :
    Loop.Ends (turn sel) (nextPart (ps.flatMap SelPart.text) t.length, o)
      (.ok (true, o.addAll ps)) ↔ Readable ps := by
  induction ps generalizing t o with
  | nil =>
    refine iff_of_true (.done ?_) trivial
    simp [turn, nextPart, SimpleSel.addAll]
  | cons p ps ih =>
    rw [nextPart, if_neg (parts_ne_nil (List.cons_ne_nil p ps))]
    rw [List.flatMap_cons] at hs
    have hs' : sel = (t ++ p.text) ++ ps.flatMap SelPart.text := by rw [hs, List.append_assoc]
    have hrest : ∀ x, (ps.flatMap SelPart.text).head? = some x → x ∈ lit ".# " := fun x hx =>
      head_parts hx
    cases p with
    | cls v =>
      have hfirst : FirstPart (SelPart.text (.cls v) ++ ps.flatMap SelPart.text)
          (SelPart.pair (.cls v)) (ps.flatMap SelPart.text) := firstPart_value (by decide) hrest
      rw [ends_cons_iff hfirst hs, ih hs']
      rfl
    | id v =>
      have hfirst : FirstPart (SelPart.text (.id v) ++ ps.flatMap SelPart.text)
          (SelPart.pair (.id v)) (ps.flatMap SelPart.text) := firstPart_value (by decide) hrest
      rw [ends_cons_iff hfirst hs, ih hs']
      rfl
    | attr k v hne hk =>
      cases v with
      | none =>
        by_cases hps : ps = []
        · subst hps
          rw [List.flatMap_nil, List.append_nil] at hs
          exact iff_of_false (not_ends_name hs) fun h => h.2.1 rfl
        · rw [ends_cons_iff (firstPart_name (parts_ne_nil hps) hrest) hs, ih hs']
          exact ⟨fun h => ⟨rfl, hps, h⟩, fun h => h.2.2⟩
      | some v => exact iff_of_false (not_ends_attr hs) fun h => by cases h.1

/-- A run of the loop within its bound. -/
theorem loop_eq_iff {n : ℕ} (hs : sel = t ++ w) (hi : i = t.length) (hn : w.length < n) :
    Loop.run (turn sel) n (some i, o) = some (.ok r) ↔
      Loop.Ends (turn sel) (nextPart w i, o) (.ok r) := by
  have hrun := run_nextPart (o := o) hs hi (Nat.zero_lt_of_lt hn)
  constructor
  · exact fun h => Loop.ends_of_run (hrun.trans h)
  · intro hends
    obtain ⟨r', hr'⟩ | hun := run_or (o := o) hs hi hn
    · rw [hr', hends.unique (Loop.ends_of_run (hrun.trans hr'))]
    · rw [nextPart, if_neg hun.ne_nil] at hends
      cases hends.unique (ends_fault hun hs hi)

/-- The selector is parsed to what it lists. -/
def Selector.Parses (s : Selector toTag) : Prop :=
  parse toTag {} s.text = some (.ok (true, s.listed))

theorem parses_iff (s : Selector toTag) : s.Parses ↔ Readable s.parts := by
  obtain ⟨tag, ps⟩ := s
  cases tag with
  | any =>
    have hs : (⟨.any, ps⟩ : Selector toTag).text = [('*' : Byte)] ++ ps.flatMap SelPart.text := rfl
    have hloop : Selector.Parses (⟨.any, ps⟩ : Selector toTag) ↔ _ :=
      loop_eq_iff (n := (ps.flatMap SelPart.text).length + 3) hs rfl (by omega)
    rw [hloop]
    exact ends_parts_iff hs
  | named n a hne hstar hsep ht =>
    have hs : (⟨.named n a hne hstar hsep ht, ps⟩ : Selector toTag).text =
        n ++ ps.flatMap SelPart.text := rfl
    have hhead : (n ++ ps.flatMap SelPart.text).head? ≠ some ('*' : Byte) := by
      rwa [List.head?_append_of_ne_nil _ hne]
    have hnil : n ++ ps.flatMap SelPart.text ≠ [] := by simp [hne]
    have hlen : (ps.flatMap SelPart.text).length < (n ++ ps.flatMap SelPart.text).length + 2 := by
      rw [List.length_append]
      omega
    rw [Selector.Parses, hs, parse_known rfl hnil hhead hsep (fun x hx => head_parts hx)
      (by simp [ht]), loop_eq_iff rfl rfl hlen, ht]
    exact ends_parts_iff rfl

/-- The parse returns unless a part is left unfinished at the end of the selector; and a selector
of the grammar is parsed to what it lists if it has no ` attr=value`, the `'='` of which is not
skipped, and does not end in an ` attr`. -/
theorem selector_parse_iff (toTag : Bytes → GumboTag τ) :
    (∀ o sel, (∃ r, parse toTag o sel = some (.ok r)) ↔ ¬Breaks toTag sel) ∧
      ∀ s : Selector toTag, s.Parses ↔ Readable s.parts := by
  constructor
  · intro o sel
    exact parse_ok_iff
  · exact parses_iff

/-- No tag is known. -/
def noTag (_ : Bytes) : GumboTag Unit := .unknown

/-- `* a=b`. -/
def attrEqValue : Selector noTag where
  tag := .any
  parts := [.attr (lit "a") (some (.plain (lit "b") (by decide) (by simp [lit]) (by simp [lit])))
    (by decide) (by simp [lit])]

/-- Of `*.` a byte behind the end is read, and the value in `* a=b` is taken to be `=b`. -/
theorem selector_parse_fails :
    (¬∃ r, parse noTag {} (lit "*.") = some (.ok r)) ∧ ¬attrEqValue.Parses := by
  constructor
  · rintro ⟨r, hr⟩
    have hrun : parse noTag {} (lit "*.") = some (.error .index) := rfl
    cases hrun.symm.trans hr
  · intro h
    have hrun : parse noTag {} attrEqValue.text =
        some (.ok (true, ⟨.last, [(lit "a", lit "=b")]⟩)) := rfl
    have hval := hrun.symm.trans h
    simp only [Option.some.injEq, Except.ok.injEq, Prod.mk.injEq, true_and] at hval
    exact absurd (congrArg SimpleSel.attrs hval) (by decide)

end Jkl.Html
