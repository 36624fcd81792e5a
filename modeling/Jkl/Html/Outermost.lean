import Jkl.Html.Search
import Jkl.Html.Selector

/-! Selectors, and the search that passes over what is below a match: it finds the outermost
matches. A node is known by its address, the indices of the children on the way down to it. -/
namespace Jkl.Html

open Uri (Bytes)

/-! Selectors. -/

section Selectors

variable {τ : Type} [DecidableEq τ]

/-- What selectors look at of a `gumbo_element`: its tag, and names and values of its attributes. -/
structure GumboElement (τ : Type) where
  tag : GumboTag τ
  attrs : List (Bytes × Bytes)
deriving DecidableEq

/-- The value of the attribute `get_attr` finds. -/
def GumboElement.getAttr (e : GumboElement τ) (name : Bytes) : Option Bytes :=
  (e.attrs.find? fun a => a.1 = name).map Prod.snd

/-- `html_simple_sel::match`. -/
def SimpleSel.matchElement (s : SimpleSel τ) (e : GumboElement τ) : Bool :=
  (s.tag = .last ∨ s.tag = e.tag) ∧
    s.attrs.all fun kv =>
      match e.getAttr kv.1 with
      | some a => kv.2 = [] ∨ kv.2 = a
      | none => false

/-- What `to_html_sel` gives: an `html_simple_sel`, an `html_tag_sel`, or an `html_combo_sel` of any
function. -/
inductive HtmlSel (τ : Type) where
  | simple (s : SimpleSel τ)
  | tag (t : GumboTag τ)
  | combo (f : GumboElement τ → Bool)

namespace HtmlSel

def matchElement : HtmlSel τ → GumboElement τ → Bool
  | simple s, e => s.matchElement e
  | tag t, e => t = e.tag
  | combo f, e => f e

/-- `operator&&`. -/
def and (l r : HtmlSel τ) : HtmlSel τ := .combo fun e => l.matchElement e && r.matchElement e

/-- `operator||`. -/
def or (l r : HtmlSel τ) : HtmlSel τ := .combo fun e => l.matchElement e || r.matchElement e

/-- `operator-`. -/
def minus (l r : HtmlSel τ) : HtmlSel τ := .combo fun e => l.matchElement e && !r.matchElement e

/-- `operator!`. -/
def not (s : HtmlSel τ) : HtmlSel τ := .combo fun e => !s.matchElement e

end HtmlSel

end Selectors

/-! Addresses. -/

variable {ε : Type} {sel : ε → Bool} {n c : GumboNode ε} {l : List (GumboNode ε)} {e : ε}
  {i : ℕ} {p : List ℕ}

namespace GumboNode

/-- The node at an address below a node. -/
def nodeAt (n : GumboNode ε) : List ℕ → Option (GumboNode ε)
  | [] => some n
  | i :: p => n.children[i]?.bind fun c => c.nodeAt p

/-- The element at an address. -/
def elementAt (n : GumboNode ε) (p : List ℕ) : Option ε := (n.nodeAt p).bind element?

@[simp] theorem elementAt_nil : n.elementAt [] = n.element? := rfl

theorem elementAt_cons : n.elementAt (i :: p) = n.children[i]?.bind fun c => c.elementAt p := by
  rw [elementAt, nodeAt, Option.bind_assoc]
  rfl

end GumboNode

/-- The node at the address is an element that matches. -/
def MatchesAt (sel : ε → Bool) (n : GumboNode ε) (p : List ℕ) : Prop :=
  ∃ e, n.elementAt p = some e ∧ sel e = true

/-- The address is that of a descendant that matches, and no descendant above it matches. -/
def Outermost (sel : ε → Bool) (n : GumboNode ε) (p : List ℕ) : Prop :=
  p ≠ [] ∧ MatchesAt sel n p ∧ ∀ q, q ≠ [] → q <+: p → MatchesAt sel n q → q = p

theorem matchesAt_nil : MatchesAt sel n [] ↔ ∃ e, n.element?.filter sel = some e := by
  simp [MatchesAt, Option.filter_eq_some_iff]

theorem matchesAt_cons : MatchesAt sel n (i :: p) ↔ ∃ c, n.children[i]? = some c ∧
    MatchesAt sel c p := by
  simp only [MatchesAt, GumboNode.elementAt_cons, Option.bind_eq_some_iff]
  constructor
  · rintro ⟨e, ⟨c, hc, he⟩, hsel⟩
    exact ⟨c, hc, e, he, hsel⟩
  · rintro ⟨c, hc, e, he, hsel⟩
    exact ⟨e, ⟨c, hc, he⟩, hsel⟩

/-- Of a child that matches nothing else is outermost, and of any other what is outermost below. -/
theorem outermost_cons : Outermost sel n (i :: p) ↔ ∃ c, n.children[i]? = some c ∧
    (MatchesAt sel c [] ∧ p = [] ∨ ¬MatchesAt sel c [] ∧ Outermost sel c p) := by
  unfold Outermost
  simp only [matchesAt_cons]
  constructor
  · rintro ⟨-, ⟨c, hc, hm⟩, hout⟩
    have hbelow : ∀ q, q <+: p → MatchesAt sel c q → q = p := fun q hq hmq =>
      (List.cons.inj (hout (i :: q) (List.cons_ne_nil _ _) ((List.prefix_cons_inj i).2 hq)
        (matchesAt_cons.2 ⟨c, hc, hmq⟩))).2
    refine ⟨c, hc, ?_⟩
    by_cases hmc : MatchesAt sel c []
    · exact .inl ⟨hmc, (hbelow [] List.nil_prefix hmc).symm⟩
    · have hne : p ≠ [] := by
        rintro rfl
        exact hmc hm
      exact .inr ⟨hmc, hne, hm, fun q _ => hbelow q⟩
  · rintro ⟨c, hc, h⟩
    have hm : MatchesAt sel c p := by
      obtain ⟨hmc, rfl⟩ | ⟨-, -, hm, -⟩ := h
      · exact hmc
      · exact hm
    refine ⟨List.cons_ne_nil _ _, ⟨c, hc, hm⟩, ?_⟩
    intro q' hne hq' hmq'
    obtain ⟨j, q, rfl⟩ := List.exists_cons_of_ne_nil hne
    obtain ⟨rfl, hq⟩ := List.cons_prefix_cons.1 hq'
    obtain ⟨c', hc', hmq⟩ := matchesAt_cons.1 hmq'
    obtain rfl : c = c' := Option.some.inj (hc.symm.trans hc')
    obtain ⟨-, rfl⟩ | ⟨hmc, -, -, hout⟩ := h
    · rw [List.prefix_nil.1 hq]
    · have hqne : q ≠ [] := by
        rintro rfl
        exact hmc hmq
      rw [hout q hqne hq hmq]

/-! What the search finds. -/

mutual

/-- The addresses of what the loop finds over the children from the `i`th on. -/
def outermost (sel : ε → Bool) (i : ℕ) : List (GumboNode ε) → List (List ℕ)
  | [] => []
  | c :: cs =>
    match c.element?.filter sel with
    | some _ => [i] :: outermost sel (i + 1) cs
    | none => (outermostBelow sel c).map (i :: ·) ++ outermost sel (i + 1) cs

def outermostBelow (sel : ε → Bool) : GumboNode ε → List (List ℕ)
  | .document cs => outermost sel 0 cs
  | .element _ cs => outermost sel 0 cs
  | .template _ _ => []
  | .text => []

end

theorem outermostBelow_eq : outermostBelow sel n = outermost sel 0 n.children := by
  cases n with
  | document cs => rfl
  | element e cs => rfl
  | template e cs => rfl
  | text => rfl

theorem filter_element_eq_none : n.element?.filter sel = none ↔ ¬MatchesAt sel n [] := by
  rw [matchesAt_nil, ← Option.ne_none_iff_exists', not_not]

mutual

theorem forChildren_outermost (pre l : List (GumboNode ε)) (n : GumboNode ε)
    (h : n.children = pre ++ l) (v : List ε) : (forChildren .untilFound (collect sel) l v).map some =
      v.map some ++ (outermost sel pre.length l).map n.elementAt := by
  cases l with
  | nil => simp [forChildren, outermost]
  | cons c cs =>
    have hchild : n.children[pre.length]? = some c := by simp [h]
    have hrest : n.children = (pre ++ [c]) ++ cs := by simp [h]
    have hlen : pre.length + 1 = (pre ++ [c]).length := by simp
    rw [forChildren, outermost]
    simp only [collect_eq]
    cases hf : c.element?.filter sel with
    | some e =>
      have he : n.elementAt [pre.length] = some e := by
        rw [GumboNode.elementAt_cons, hchild]
        exact (Option.filter_eq_some_iff.1 hf).1
      rw [if_pos rfl, hlen, forChildren_outermost (pre ++ [c]) cs n hrest]
      simp [he]
    | none =>
      have hbelow : ((outermostBelow sel c).map (pre.length :: ·)).map n.elementAt =
          (outermostBelow sel c).map c.elementAt := by
        rw [List.map_map]
        apply List.map_congr_left
        intro p _
        rw [Function.comp, GumboNode.elementAt_cons, hchild]
        rfl
      rw [if_neg Bool.false_ne_true, hlen, forChildren_outermost (pre ++ [c]) cs n hrest, descend_outermost c v,
        ← hlen, List.map_append, hbelow, List.append_assoc]

theorem descend_outermost (c : GumboNode ε) (v : List ε) :
    (descend .untilFound (collect sel) c v).map some =
      v.map some ++ (outermostBelow sel c).map c.elementAt := by
  cases c with
  | document cs => rw [descend, outermostBelow, forChildren_outermost [] cs (.document cs) rfl, List.length_nil]
  | element e cs =>
    rw [descend, outermostBelow, forChildren_outermost [] cs (.element e cs) rfl, List.length_nil]
  | template e cs => simp [descend, outermostBelow]
  | text => simp [descend, outermostBelow]

end

/-- An address that starts at the `k`th child or at a later one. -/
def From (k : ℕ) (p : List ℕ) : Prop := ∃ i q, p = i :: q ∧ k ≤ i

theorem from_iff {k : ℕ} : From k p ↔ (∃ q, p = k :: q) ∨ From (k + 1) p := by
  constructor
  · rintro ⟨i, q, rfl, hi⟩
    obtain rfl | hlt := Nat.eq_or_lt_of_le hi
    · exact .inl ⟨q, rfl⟩
    · exact .inr ⟨i, q, rfl, hlt⟩
  · rintro (⟨q, rfl⟩ | ⟨i, q, rfl, hi⟩)
    · exact ⟨k, q, rfl, Nat.le_refl k⟩
    · exact ⟨i, q, rfl, Nat.le_of_succ_le hi⟩

theorem Outermost.from_zero (h : Outermost sel n p) : From 0 p := by
  obtain ⟨i, q, rfl⟩ := List.exists_cons_of_ne_nil h.1
  exact ⟨i, q, rfl, Nat.zero_le i⟩

theorem not_outermost_of_no_children (h : n.children = []) : ¬Outermost sel n p := by
  intro hout
  obtain ⟨i, q, rfl, -⟩ := hout.from_zero
  obtain ⟨c, hc, -⟩ := outermost_cons.1 hout
  rw [h] at hc
  cases hc

mutual

theorem mem_outermost (pre l : List (GumboNode ε)) (n : GumboNode ε)
    (h : n.children = pre ++ l) (p : List ℕ) : p ∈ outermost sel pre.length l ↔
      From pre.length p ∧ Outermost sel n p := by
  cases l with
  | nil =>
    simp only [outermost, List.not_mem_nil, false_iff, not_and]
    rintro ⟨i, q, rfl, hi⟩ hout
    obtain ⟨c, hc, -⟩ := outermost_cons.1 hout
    rw [h, List.append_nil, List.getElem?_eq_none hi] at hc
    cases hc
  | cons c cs =>
    have hchild : n.children[pre.length]? = some c := by simp [h]
    have hrest : n.children = (pre ++ [c]) ++ cs := by simp [h]
    have hlen : pre.length + 1 = (pre ++ [c]).length := by simp
    have hhead : ∀ q, Outermost sel n (pre.length :: q) ↔
        MatchesAt sel c [] ∧ q = [] ∨ ¬MatchesAt sel c [] ∧ Outermost sel c q := by
      intro q
      rw [outermost_cons, hchild]
      simp
    have htail := mem_outermost (pre ++ [c]) cs n hrest p
    rw [← hlen] at htail
    rw [outermost, from_iff, or_and_right]
    cases hf : c.element?.filter sel with
    | some e =>
      have hm : MatchesAt sel c [] := matchesAt_nil.2 ⟨e, hf⟩
      rw [List.mem_cons, htail]
      refine or_congr_left ⟨?_, ?_⟩
      · rintro rfl
        exact ⟨⟨[], rfl⟩, (hhead []).2 (.inl ⟨hm, rfl⟩)⟩
      · rintro ⟨⟨q, rfl⟩, hout⟩
        obtain ⟨-, rfl⟩ | ⟨hn, -⟩ := (hhead q).1 hout
        · rfl
        · exact absurd hm hn
    | none =>
      have hm : ¬MatchesAt sel c [] := filter_element_eq_none.1 hf
      rw [List.mem_append, List.mem_map, htail]
      refine or_congr_left ⟨?_, ?_⟩
      · rintro ⟨q, hq, rfl⟩
        exact ⟨⟨q, rfl⟩, (hhead q).2 (.inr ⟨hm, (mem_outermostBelow c q).1 hq⟩)⟩
      · rintro ⟨⟨q, rfl⟩, hout⟩
        obtain ⟨hn, -⟩ | ⟨-, hq⟩ := (hhead q).1 hout
        · exact absurd hn hm
        · exact ⟨q, (mem_outermostBelow c q).2 hq, rfl⟩

theorem mem_outermostBelow (c : GumboNode ε) (p : List ℕ) :
    p ∈ outermostBelow sel c ↔ Outermost sel c p := by
  cases c with
  | document cs =>
    rw [outermostBelow]
    exact (mem_outermost [] cs (.document cs) rfl p).trans (and_iff_right_of_imp (·.from_zero))
  | element e cs =>
    rw [outermostBelow]
    exact (mem_outermost [] cs (.element e cs) rfl p).trans (and_iff_right_of_imp (·.from_zero))
  | template e cs => simp [outermostBelow, @not_outermost_of_no_children _ _ (.template e cs) _ rfl]
  | text => simp [outermostBelow, @not_outermost_of_no_children _ sel .text _ rfl]

end

theorem from_outermost {i : ℕ} : ∀ p ∈ outermost sel i l, From i p := by
  induction l generalizing i with
  | nil => simp [outermost]
  | cons c cs ih =>
    intro p hp
    rw [from_iff]
    rw [outermost] at hp
    cases hf : c.element?.filter sel with
    | some e =>
      rw [hf] at hp
      obtain rfl | hp := List.mem_cons.1 hp
      · exact .inl ⟨[], rfl⟩
      · exact .inr (ih p hp)
    | none =>
      rw [hf] at hp
      obtain hp | hp := List.mem_append.1 hp
      · obtain ⟨q, -, rfl⟩ := List.mem_map.1 hp
        exact .inl ⟨q, rfl⟩
      · exact .inr (ih p hp)

/-- What starts at a later child comes later. -/
theorem From.lt (h : From (i + 1) p) (q : List ℕ) : i :: q < p := by
  obtain ⟨j, r, rfl, hj⟩ := h
  exact List.cons_lt_cons_iff.2 (.inl hj)

mutual

theorem sorted_outermost (i : ℕ) (l : List (GumboNode ε)) :
    (outermost sel i l).Pairwise (· < ·) := by
  cases l with
  | nil => simp [outermost]
  | cons c cs =>
    have htail := sorted_outermost (i + 1) cs
    rw [outermost]
    cases c.element?.filter sel with
    | some e => exact List.pairwise_cons.2 ⟨fun p hp => (from_outermost p hp).lt [], htail⟩
    | none =>
      refine List.pairwise_append.2 ⟨?_, htail, ?_⟩
      · rw [List.pairwise_map]
        exact (sorted_outermostBelow c).imp fun h => List.cons_lt_cons_iff.2 (.inr ⟨rfl, h⟩)
      · intro p hp p' hp'
        obtain ⟨q, -, rfl⟩ := List.mem_map.1 hp
        exact (from_outermost p' hp').lt q

theorem sorted_outermostBelow (c : GumboNode ε) : (outermostBelow sel c).Pairwise (· < ·) := by
  cases c with
  | document cs => exact sorted_outermost 0 cs
  | element e cs => exact sorted_outermost 0 cs
  | template e cs => exact List.Pairwise.nil
  | text => exact List.Pairwise.nil

end

/-- The search gives the elements at the addresses of the outermost matches, each once and in
document order. -/
theorem elms_untilFound {τ : Type} [DecidableEq τ] (sel : HtmlSel τ)
    (n : GumboNode (GumboElement τ)) :
    ∃ ps : List (List ℕ), (∀ p, p ∈ ps ↔ Outermost sel.matchElement n p) ∧
      ps.Pairwise (· < ·) ∧
      (elms .untilFound sel.matchElement n).map some = ps.map n.elementAt := by
  refine ⟨outermostBelow sel.matchElement n, mem_outermostBelow n, sorted_outermostBelow n, ?_⟩
  rw [elms, foreachIf, if_neg (by decide), outermostBelow_eq,
    ← @List.length_nil (GumboNode (GumboElement τ)), forChildren_outermost [] n.children n rfl]
  rfl

end Jkl.Html
