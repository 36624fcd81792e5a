import Jkl.Html.Outermost
import Jkl.Lib.Address

/-! Collections of elements, and chains of searches: `doc % "div" / "p" % "a"`. A pointer to a
node is the node with all that is below it. -/
namespace Jkl.Html

open Address (Before)

variable {ε σ τ : Type}

/-- What `elms` calls on each node: an element that matches is appended. -/
def collectNode (sel : ε → Bool) (n : GumboNode ε) (v : List (GumboNode ε)) :
    Bool × List (GumboNode ε) :=
  match n.element? with
  | some e => if sel e then (true, v ++ [n]) else (false, v)
  | none => (false, v)

/-- `gumbo_elm_coll::foreach_if`. -/
def foreachIfColl (st : HtmlSearchType) (f : GumboNode ε → σ → Bool × σ)
    (c : List (GumboNode ε)) (s : σ) : σ :=
  c.foldl (fun s e => foreachIf st f e s) s

/-- `elms` of a collection. -/
def collElms (st : HtmlSearchType) (sel : ε → Bool) (c : List (GumboNode ε)) :
    List (GumboNode ε) :=
  foreachIfColl st (collectNode sel) c []

/-- `operator%` and `operator/` with what is on their right. -/
inductive SearchOp (τ : Type) where
  | untilFound (sel : HtmlSel τ)
  | directChild (sel : HtmlSel τ)

namespace SearchOp

variable [DecidableEq τ]

def type : SearchOp τ → HtmlSearchType
  | untilFound _ => .untilFound
  | directChild _ => .directChild

def sel : SearchOp τ → GumboElement τ → Bool
  | untilFound s => s.matchElement
  | directChild s => s.matchElement

def apply (o : SearchOp τ) (c : List (GumboNode (GumboElement τ))) :
    List (GumboNode (GumboElement τ)) :=
  collElms o.type o.sel c

end SearchOp

/-- `n o₁ o₂ ...`, from the left. -/
def chain [DecidableEq τ] (os : List (SearchOp τ)) (n : GumboNode (GumboElement τ)) :
    List (GumboNode (GumboElement τ)) :=
  os.foldl (fun c o => o.apply c) [n]

/-! What a single search gives. -/

section Single

variable {sel : ε → Bool} {n c : GumboNode ε} {l : List (GumboNode ε)}
  {v : List (GumboNode ε)}

theorem collectNode_eq : collectNode sel n v =
    match n.element?.filter sel with
    | some _ => (true, v ++ [n])
    | none => (false, v) := by
  unfold collectNode
  cases n.element? with
  | none => rfl
  | some e => by_cases h : sel e = true <;> simp [Option.filter, h]

theorem nodeAt_append (n : GumboNode ε) (p q : List ℕ) :
    n.nodeAt (p ++ q) = (n.nodeAt p).bind fun m => m.nodeAt q := by
  induction p generalizing n with
  | nil => rfl
  | cons i p ih =>
    simp only [List.cons_append, GumboNode.nodeAt, Option.bind_assoc]
    exact congrArg _ (funext fun c => ih c)

theorem nodeAt_child {pre : List (GumboNode ε)} (h : n.children = pre ++ c :: l) (q : List ℕ) :
    n.nodeAt (pre.length :: q) = c.nodeAt q := by
  simp [GumboNode.nodeAt, h]

mutual

theorem forChildren_nodes (pre l : List (GumboNode ε)) (n : GumboNode ε)
    (h : n.children = pre ++ l) (v : List (GumboNode ε)) :
    (forChildren .untilFound (collectNode sel) l v).map some =
      v.map some ++ (outermost sel pre.length l).map n.nodeAt := by
  cases l with
  | nil => simp [forChildren, outermost]
  | cons c cs =>
    have hrest : n.children = (pre ++ [c]) ++ cs := by simp [h]
    have hlen : pre.length + 1 = (pre ++ [c]).length := by simp
    rw [forChildren, outermost]
    simp only [collectNode_eq]
    cases c.element?.filter sel with
    | some e =>
      have hc : n.nodeAt [pre.length] = some c := nodeAt_child h []
      rw [if_pos rfl, hlen, forChildren_nodes (pre ++ [c]) cs n hrest]
      simp [hc]
    | none =>
      have hbelow : ((outermostBelow sel c).map (pre.length :: ·)).map n.nodeAt =
          (outermostBelow sel c).map c.nodeAt := by
        rw [List.map_map]
        exact List.map_congr_left fun q _ => nodeAt_child h q
      rw [if_neg Bool.false_ne_true, hlen, forChildren_nodes (pre ++ [c]) cs n hrest,
        descend_nodes c v, ← hlen, List.map_append, hbelow, List.append_assoc]

theorem descend_nodes (c : GumboNode ε) (v : List (GumboNode ε)) :
    (descend .untilFound (collectNode sel) c v).map some =
      v.map some ++ (outermostBelow sel c).map c.nodeAt := by
  cases c with
  | document cs =>
    rw [descend, outermostBelow, forChildren_nodes [] cs (.document cs) rfl, List.length_nil]
  | element e cs =>
    rw [descend, outermostBelow, forChildren_nodes [] cs (.element e cs) rfl, List.length_nil]
  | template e cs => simp [descend, outermostBelow]
  | text => simp [descend, outermostBelow]

end

/-- The addresses of the children from the `i`th on that match. -/
def matchingChildren (sel : ε → Bool) (i : ℕ) : List (GumboNode ε) → List (List ℕ)
  | [] => []
  | c :: cs =>
    match c.element?.filter sel with
    | some _ => [i] :: matchingChildren sel (i + 1) cs
    | none => matchingChildren sel (i + 1) cs

theorem forChildren_children (pre l : List (GumboNode ε)) (n : GumboNode ε)
    (h : n.children = pre ++ l) (v : List (GumboNode ε)) :
    (forChildren .directChild (collectNode sel) l v).map some =
      v.map some ++ (matchingChildren sel pre.length l).map n.nodeAt := by
  induction l generalizing pre v with
  | nil => simp [forChildren, matchingChildren]
  | cons c cs ih =>
    have hrest : n.children = (pre ++ [c]) ++ cs := by simp [h]
    have hlen : pre.length + 1 = (pre ++ [c]).length := by simp
    rw [forChildren, matchingChildren]
    simp only [collectNode_eq]
    cases c.element?.filter sel with
    | some e =>
      have hc : n.nodeAt [pre.length] = some c := nodeAt_child h []
      rw [hlen, ih (pre ++ [c]) hrest]
      simp [hc]
    | none => rw [hlen, ih (pre ++ [c]) hrest]

theorem mem_matchingChildren {i : ℕ} {p : List ℕ} : p ∈ matchingChildren sel i l ↔
    ∃ j c, p = [i + j] ∧ l[j]? = some c ∧ MatchesAt sel c [] := by
  induction l generalizing i with
  | nil => simp [matchingChildren]
  | cons c cs ih =>
    have hshift : (∃ j d, p = [i + j] ∧ (c :: cs)[j]? = some d ∧ MatchesAt sel d []) ↔
        p = [i] ∧ MatchesAt sel c [] ∨
          ∃ j d, p = [i + 1 + j] ∧ cs[j]? = some d ∧ MatchesAt sel d [] := by
      constructor
      · rintro ⟨j, d, rfl, hd, hm⟩
        cases j with
        | zero =>
          obtain rfl : c = d := by simpa using hd
          exact .inl ⟨rfl, hm⟩
        | succ j => exact .inr ⟨j, d, by simp; omega, by simpa using hd, hm⟩
      · rintro (⟨rfl, hm⟩ | ⟨j, d, rfl, hd, hm⟩)
        · exact ⟨0, c, rfl, rfl, hm⟩
        · exact ⟨j + 1, d, by simp; omega, by simpa using hd, hm⟩
    rw [hshift, ← ih, matchingChildren]
    cases hf : c.element?.filter sel with
    | some e =>
      have hm : MatchesAt sel c [] := matchesAt_nil.2 ⟨e, hf⟩
      simp [hm]
    | none => simp [filter_element_eq_none.1 hf]

theorem sorted_matchingChildren (i : ℕ) (l : List (GumboNode ε)) :
    (matchingChildren sel i l).Pairwise Before := by
  induction l generalizing i with
  | nil => exact List.Pairwise.nil
  | cons c cs ih =>
    rw [matchingChildren]
    cases c.element?.filter sel with
    | some e =>
      refine List.pairwise_cons.2 ⟨fun p hp => ?_, ih (i + 1)⟩
      obtain ⟨j, d, rfl, -⟩ := mem_matchingChildren.1 hp
      exact Address.before_of_lt (by omega)
    | none => exact ih (i + 1)

/-- Of two outermost matches neither is inside the other one. -/
theorem before_outermostBelow (n : GumboNode ε) :
    (outermostBelow sel n).Pairwise Before := by
  apply (sorted_outermostBelow n).imp_of_mem
  intro p q hp hq hlt
  apply Address.before_of_lt_of_not_prefix hlt
  intro hpre
  have hout := (mem_outermostBelow n p).1 hp
  have heq := ((mem_outermostBelow n q).1 hq).2.2 p hout.1 hpre hout.2.1
  exact lt_irrefl q (heq ▸ hlt)

end Single

/-! Chains. -/

section Chain

variable [DecidableEq τ] {o : SearchOp τ} {os : List (SearchOp τ)}
  {n m : GumboNode (GumboElement τ)} {c : List (GumboNode (GumboElement τ))}
  {p q : List ℕ} {ps : List (List ℕ)}

namespace SearchOp

/-- The addresses below a node of what the search finds there. -/
def addresses (o : SearchOp τ) (m : GumboNode (GumboElement τ)) : List (List ℕ) :=
  match o with
  | untilFound s => outermostBelow s.matchElement m
  | directChild s => matchingChildren s.matchElement 0 m.children

/-- What the search should find below a node: the outermost matches, or the children that
match. -/
def Finds (o : SearchOp τ) (m : GumboNode (GumboElement τ)) (p : List ℕ) : Prop :=
  match o with
  | untilFound s => Outermost s.matchElement m p
  | directChild s => p.length = 1 ∧ MatchesAt s.matchElement m p

theorem mem_addresses : p ∈ o.addresses m ↔ o.Finds m p := by
  cases o with
  | untilFound s => exact mem_outermostBelow m p
  | directChild s =>
    refine mem_matchingChildren.trans ?_
    constructor
    · rintro ⟨j, c, rfl, hc, hm⟩
      exact ⟨rfl, matchesAt_cons.2 ⟨c, by simpa using hc, hm⟩⟩
    · rintro ⟨hlen, hm⟩
      obtain ⟨j, rfl⟩ := List.length_eq_one_iff.1 hlen
      obtain ⟨c, hc, hmc⟩ := matchesAt_cons.1 hm
      exact ⟨j, c, by simp, hc, hmc⟩

theorem sorted_addresses (o : SearchOp τ) (m : GumboNode (GumboElement τ)) :
    (o.addresses m).Pairwise Before := by
  cases o with
  | untilFound s => exact before_outermostBelow m
  | directChild s => exact sorted_matchingChildren 0 m.children

theorem foreachIf_addresses (o : SearchOp τ) (m : GumboNode (GumboElement τ))
    (v : List (GumboNode (GumboElement τ))) :
    (foreachIf o.type (collectNode o.sel) m v).map some =
      v.map some ++ (o.addresses m).map m.nodeAt := by
  cases o with
  | untilFound s =>
    rw [foreachIf, addresses, outermostBelow_eq]
    exact forChildren_nodes [] m.children m rfl v
  | directChild s =>
    rw [foreachIf, addresses]
    exact forChildren_children [] m.children m rfl v

end SearchOp

/-- The collection holds the nodes at the addresses, which are in order and not inside each
other. -/
structure Located (n : GumboNode (GumboElement τ)) (ps : List (List ℕ))
    (c : List (GumboNode (GumboElement τ))) : Prop where
  nodes : c.map some = ps.map n.nodeAt
  sorted : ps.Pairwise Before

/-- The addresses after one more search. -/
def addressesAt (n : GumboNode (GumboElement τ)) (o : SearchOp τ) (p : List ℕ) : List (List ℕ) :=
  match n.nodeAt p with
  | some m => o.addresses m
  | none => []

theorem foldl_addresses (hc : c.map some = ps.map n.nodeAt)
    (v : List (GumboNode (GumboElement τ))) :
    (c.foldl (fun v e => foreachIf o.type (collectNode o.sel) e v) v).map some =
      v.map some ++ (ps.flatMap fun p => (addressesAt n o p).map (p ++ ·)).map n.nodeAt := by
  induction c generalizing ps v with
  | nil =>
    obtain rfl : ps = [] := by simpa using hc.symm
    simp
  | cons m c ih =>
    obtain ⟨p, ps, rfl⟩ := List.exists_cons_of_ne_nil (l := ps) (by rintro rfl; simp at hc)
    obtain ⟨hp, hps⟩ := List.cons.inj hc
    have haddr : ((addressesAt n o p).map (p ++ ·)).map n.nodeAt =
        (o.addresses m).map m.nodeAt := by
      rw [addressesAt, ← hp, List.map_map]
      apply List.map_congr_left
      intro q _
      rw [Function.comp, nodeAt_append, ← hp]
      rfl
    rw [List.foldl_cons, ih hps, SearchOp.foreachIf_addresses, List.flatMap_cons,
      List.map_append, haddr, List.append_assoc]

theorem Located.apply (h : Located n ps c) (o : SearchOp τ) :
    Located n (ps.flatMap fun p => (addressesAt n o p).map (p ++ ·)) (o.apply c) where
  nodes := foldl_addresses h.nodes []
  sorted := by
    apply Address.pairwise_flatMap h.sorted
    intro p _
    rw [addressesAt]
    cases n.nodeAt p with
    | none => exact List.Pairwise.nil
    | some m => exact o.sorted_addresses m

/-- A node that the searches lead to one after the other: each finds a node below the last
one. -/
def LeadsTo (n : GumboNode (GumboElement τ)) : List (SearchOp τ) → List ℕ → List ℕ → Prop
  | [], p, q => p = q
  | o :: os, p, q => ∃ m r, n.nodeAt p = some m ∧ o.Finds m r ∧ LeadsTo n os (p ++ r) q

theorem mem_addressesAt : q ∈ addressesAt n o p ↔ ∃ m, n.nodeAt p = some m ∧ o.Finds m q := by
  rw [addressesAt]
  cases n.nodeAt p with
  | none => simp
  | some m => simp [SearchOp.mem_addresses]

theorem Located.chain (h : Located n ps c) (os : List (SearchOp τ)) :
    ∃ qs, Located n qs (os.foldl (fun c o => o.apply c) c) ∧
      ∀ q, q ∈ qs ↔ ∃ p ∈ ps, LeadsTo n os p q := by
  induction os generalizing ps c with
  | nil => exact ⟨ps, h, fun q => by simp [LeadsTo]⟩
  | cons o os ih =>
    obtain ⟨qs, hqs, hmem⟩ := ih (h.apply o)
    refine ⟨qs, hqs, fun q => (hmem q).trans ?_⟩
    simp only [List.mem_flatMap, List.mem_map, mem_addressesAt, LeadsTo]
    constructor
    · rintro ⟨p', ⟨p, hp, r, ⟨m, hm, hr⟩, rfl⟩, hq⟩
      exact ⟨p, hp, m, r, hm, hr, hq⟩
    · rintro ⟨p, hp, m, r, hm, hr, hq⟩
      exact ⟨p ++ r, ⟨p, hp, r, ⟨m, hm, hr⟩, rfl⟩, hq⟩

/-- A chain of searches gives the nodes that its searches lead to one after the other, each
once, in document order, and none inside another one. -/
theorem chain_eq (os : List (SearchOp τ)) (n : GumboNode (GumboElement τ)) :
    ∃ ps : List (List ℕ), (∀ p, p ∈ ps ↔ LeadsTo n os [] p) ∧ ps.Pairwise Before ∧
      (chain os n).map some = ps.map n.nodeAt := by
  have hn : Located n [[]] [n] := ⟨rfl, List.pairwise_singleton ..⟩
  obtain ⟨ps, hps, hmem⟩ := hn.chain os
  exact ⟨ps, fun p => by simp [hmem], hps.sorted, hps.nodes⟩

end Chain

end Jkl.Html
