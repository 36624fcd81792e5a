import Mathlib.Data.List.Basic
import Mathlib.Tactic.Common

/-! Searching a document: `foreach_if` walks the descendants of a node as the search type says, and
`elms` collects the elements a selector matches. -/
namespace Jkl.Html

variable {ε σ : Type}

/-- A node of a `gumbo` tree. Of an element only what a selector looks at is kept. -/
inductive GumboNode (ε : Type) where
  | document (children : List (GumboNode ε))
  | element (e : ε) (children : List (GumboNode ε))
  | template (e : ε) (children : List (GumboNode ε))
  /-- Text, CDATA, a comment or white space. -/
  | text

namespace GumboNode

/-- `children()`: only of a document and of an element. -/
def children : GumboNode ε → List (GumboNode ε)
  | document cs => cs
  | element _ cs => cs
  | template _ _ => []
  | text => []

/-- `gumbo_element` of a node, if it is one. -/
def element? : GumboNode ε → Option ε
  | element e _ => some e
  | _ => none

end GumboNode

inductive HtmlSearchType where
  | self
  | directChild
  | untilFound
  | untilFoundFirst
  | all
deriving DecidableEq, Repr

/-! The walk. `f` is called on nodes and may change the state; what it returns tells whether the
node was found. -/

mutual

/-- The loop over the children that are left. -/
def forChildren (st : HtmlSearchType) (f : GumboNode ε → σ → Bool × σ) :
    List (GumboNode ε) → σ → σ
  | [], s => s
  | c :: cs, s =>
    match st with
    | .self => s
    | .directChild => forChildren st f cs (f c s).2
    | .untilFound =>
      if (f c s).1 then forChildren st f cs (f c s).2
      else forChildren st f cs (descend st f c (f c s).2)
    | .untilFoundFirst =>
      if (f c s).1 then (f c s).2 else forChildren st f cs (descend st f c (f c s).2)
    | .all => forChildren st f cs (descend st f c (f c s).2)

/-- The walk of a child: the loop over its `children()`. -/
def descend (st : HtmlSearchType) (f : GumboNode ε → σ → Bool × σ) : GumboNode ε → σ → σ
  | .document cs, s => forChildren st f cs s
  | .element _ cs, s => forChildren st f cs s
  | .template _ _, s => s
  | .text, s => s

end

/-- `gumbo_node::foreach_if`. -/
def foreachIf (st : HtmlSearchType) (f : GumboNode ε → σ → Bool × σ) (n : GumboNode ε) (s : σ) :
    σ :=
  if st = .self then (f n s).2 else forChildren st f n.children s

/-- What `elms` calls on each node: an element that matches is appended. -/
def collect (sel : ε → Bool) (n : GumboNode ε) (v : List ε) : Bool × List ε :=
  match n.element? with
  | some e => if sel e then (true, v ++ [e]) else (false, v)
  | none => (false, v)

/-- `gumbo_searchable::elms`. -/
def elms (st : HtmlSearchType) (sel : ε → Bool) (n : GumboNode ε) : List ε :=
  foreachIf st (collect sel) n []

/-! What there is to find. -/

variable {sel : ε → Bool} {n : GumboNode ε} {l : List (GumboNode ε)} {v : List ε}

mutual

/-- The elements of a forest in document order. -/
def elements : List (GumboNode ε) → List ε
  | [] => []
  | c :: cs => c.element?.toList ++ descendants c ++ elements cs

/-- The elements below a node in document order. -/
def descendants : GumboNode ε → List ε
  | .document cs => elements cs
  | .element _ cs => elements cs
  | .template _ _ => []
  | .text => []

end

theorem descendants_eq : descendants n = elements n.children := by
  cases n with
  | document cs => simp [descendants, GumboNode.children]
  | element e cs => simp [descendants, GumboNode.children]
  | template e cs => simp [descendants, GumboNode.children, elements]
  | text => simp [descendants, GumboNode.children, elements]

/-! What the search for the first match finds: after a match the loop of its level ends, and those
around it go on. -/

mutual

def found (sel : ε → Bool) : List (GumboNode ε) → List ε
  | [] => []
  | c :: cs =>
    match c.element?.filter sel with
    | some e => [e]
    | none => foundBelow sel c ++ found sel cs

def foundBelow (sel : ε → Bool) : GumboNode ε → List ε
  | .document cs => found sel cs
  | .element _ cs => found sel cs
  | .template _ _ => []
  | .text => []

end

theorem collect_eq : collect sel n v =
    match n.element?.filter sel with
    | some e => (true, v ++ [e])
    | none => (false, v) := by
  unfold collect
  cases n.element? with
  | none => rfl
  | some e => by_cases h : sel e = true <;> simp [Option.filter, h]

mutual

theorem forChildren_first (l : List (GumboNode ε)) (v : List ε) :
    forChildren .untilFoundFirst (collect sel) l v = v ++ found sel l := by
  cases l with
  | nil => simp [forChildren, found]
  | cons c cs =>
    rw [forChildren, found]
    simp only [collect_eq]
    cases c.element?.filter sel with
    | some e => simp
    | none =>
      simp only [Bool.false_eq_true, if_false]
      rw [descend_first c v, forChildren_first cs, List.append_assoc]

theorem descend_first (n : GumboNode ε) (v : List ε) :
    descend .untilFoundFirst (collect sel) n v = v ++ foundBelow sel n := by
  cases n with
  | document cs => rw [descend, foundBelow, forChildren_first cs]
  | element e cs => rw [descend, foundBelow, forChildren_first cs]
  | template e cs => rw [descend, foundBelow, List.append_nil]
  | text => rw [descend, foundBelow, List.append_nil]

end

theorem elms_first : elms .untilFoundFirst sel n = found sel n.children := by
  rw [elms, foreachIf, if_neg (by decide), forChildren_first, List.nil_append]

theorem find?_element (o : Option ε) : o.toList.find? sel = o.filter sel := by
  cases o with
  | none => rfl
  | some e => by_cases h : sel e = true <;> simp [Option.filter, h]

mutual

/-- What is found starts with the first match. -/
theorem head?_found (l : List (GumboNode ε)) :
    (found sel l).head? = (elements l).find? sel := by
  cases l with
  | nil => simp [found, elements]
  | cons c cs =>
    rw [found, elements, List.find?_append, List.find?_append, find?_element]
    cases c.element?.filter sel with
    | some e => rfl
    | none => simp [List.head?_append, head?_foundBelow c, head?_found cs]

theorem head?_foundBelow (n : GumboNode ε) :
    (foundBelow sel n).head? = (descendants n).find? sel := by
  cases n with
  | document cs => rw [foundBelow, descendants, head?_found cs]
  | element e cs => rw [foundBelow, descendants, head?_found cs]
  | template e cs => simp [foundBelow, descendants]
  | text => simp [foundBelow, descendants]

end

/-! Where nothing more is found. -/

/-- No element matches. -/
def NoMatch (sel : ε → Bool) (l : List ε) : Prop := ∀ e ∈ l, sel e = false

mutual

/-- In every level the search walks, a child that does not match but has a match below has no later
sibling that matches or has a match below. -/
def OneLevel (sel : ε → Bool) : List (GumboNode ε) → Prop
  | [] => True
  | c :: cs => (∃ e, c.element? = some e ∧ sel e = true) ∨
      OneLevelBelow sel c ∧ OneLevel sel cs ∧
        (NoMatch sel (descendants c) ∨ NoMatch sel (elements cs))

def OneLevelBelow (sel : ε → Bool) : GumboNode ε → Prop
  | .document cs => OneLevel sel cs
  | .element _ cs => OneLevel sel cs
  | .template _ _ => True
  | .text => True

end

theorem eq_nil_of_head? {l l' : List ε} (h : l.head? = l'.find? sel) :
    l = [] ↔ NoMatch sel l' := by
  rw [← List.head?_eq_none_iff, h, List.find?_eq_none]
  simp [NoMatch]

mutual

theorem length_found_le (l : List (GumboNode ε)) :
    (found sel l).length ≤ 1 ↔ OneLevel sel l := by
  cases l with
  | nil => simp [found, OneLevel]
  | cons c cs =>
    rw [found, OneLevel, ← length_foundBelow_le c, ← length_found_le cs,
      ← eq_nil_of_head? (head?_foundBelow c), ← eq_nil_of_head? (head?_found cs)]
    cases hf : c.element?.filter sel with
    | some e =>
      have he := Option.filter_eq_some_iff.1 hf
      exact iff_of_true (Nat.le_refl 1) (.inl ⟨e, he⟩)
    | none =>
      have hno : ¬∃ e, c.element? = some e ∧ sel e = true := by
        rintro ⟨e, he⟩
        rw [Option.filter_eq_some_iff.2 he] at hf
        cases hf
      simp only [hno, false_or, List.length_append, ← List.length_eq_zero_iff]
      omega

theorem length_foundBelow_le (n : GumboNode ε) :
    (foundBelow sel n).length ≤ 1 ↔ OneLevelBelow sel n := by
  cases n with
  | document cs => rw [foundBelow, OneLevelBelow, length_found_le cs]
  | element e cs => rw [foundBelow, OneLevelBelow, length_found_le cs]
  | template e cs => simp [foundBelow, OneLevelBelow]
  | text => simp [foundBelow, OneLevelBelow]

end

/-- The search for the first match gives it alone, or nothing where there is none, exactly where
no level around that of the match has another one behind it. -/
theorem elms_first_iff (sel : ε → Bool) (n : GumboNode ε) :
    elms .untilFoundFirst sel n = ((descendants n).find? sel).toList ↔
      OneLevel sel n.children := by
  rw [elms_first, ← length_found_le, descendants_eq, ← head?_found]
  rcases found sel n.children with - | ⟨x, - | ⟨y, xs⟩⟩
  · simp
  · simp
  · simp

/-- A match in one section, and another in the next. -/
theorem elms_first_finds_two :
    elms .untilFoundFirst (· = "p") (.document [.element "div" [.element "p" []],
      .element "p" []]) ≠ ((descendants (.document [.element "div" [.element "p" []],
      .element "p" []])).find? (· = "p")).toList := by
  decide

end Jkl.Html
