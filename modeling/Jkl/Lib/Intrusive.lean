import Mathlib.Data.List.Nodup
import Mathlib.Logic.Function.Basic
import Mathlib.Tactic.Common

/-! A doubly linked list whose links lie in its elements; the back link of an element is the
address of the pointer to it. Memory is partial, so to use an element that is not there is
`none`. -/
namespace Intrusive

variable {ι δ : Type*}

/-- The address of a pointer to an element: the head, or the forward link of an element. -/
inductive Slot (ι : Type*) where
  | head
  | next (i : ι)
deriving DecidableEq, Repr

/-- An element: its links and what else it holds. -/
structure Cell (ι δ : Type*) where
  next : Option ι
  prev : Option (Slot ι)
  data : δ
deriving DecidableEq, Repr

def Cell.withPrev (x : Cell ι δ) (p : Option (Slot ι)) : Cell ι δ := { x with prev := p }

structure Links (ι δ : Type*) where
  head : Option ι
  cell : ι → Option (Cell ι δ)

namespace Links

def read (l : Links ι δ) : Slot ι → Option (Option ι)
  | .head => some l.head
  | .next i => (l.cell i).map Cell.next

section Ops

variable [DecidableEq ι]

def setCell (l : Links ι δ) (i : ι) (x : Option (Cell ι δ)) : Links ι δ :=
  ⟨l.head, Function.update l.cell i x⟩

def modify (l : Links ι δ) (i : ι) (f : Cell ι δ → Cell ι δ) : Option (Links ι δ) :=
  (l.cell i).map fun x => l.setCell i (some (f x))

def write (l : Links ι δ) (p : Slot ι) (v : Option ι) : Option (Links ι δ) :=
  match p with
  | .head => some { l with head := v }
  | .next i => l.modify i fun x => { x with next := v }

def setPrev (l : Links ι δ) (i : ι) (p : Option (Slot ι)) : Option (Links ι δ) :=
  l.modify i fun x => x.withPrev p

/-- The back link of the element that a pointer points to, if any, becomes `p`. -/
def setPrevOf (l : Links ι δ) (v : Option ι) (p : Option (Slot ι)) : Option (Links ι δ) :=
  match v with
  | none => some l
  | some j => l.setPrev j p

def pushFront (l : Links ι δ) (i : ι) : Option (Links ι δ) := do
  let l ← l.write (.next i) l.head
  let l ← l.setPrevOf l.head (some (.next i))
  let l ← l.setPrev i (some .head)
  l.write .head (some i)

/-- Takes out the element at the head; its back link becomes null. -/
def popFront (l : Links ι δ) (i : ι) : Option (Links ι δ) := do
  let x ← l.cell i
  let l ← l.write .head x.next
  let l ← l.setPrevOf l.head (some .head)
  l.setPrev i none

/-- Takes out an element wherever it is; its own links stay. -/
def unlink (l : Links ι δ) (i : ι) : Option (Links ι δ) :=
  (l.cell i).bind fun x => x.prev.bind fun p =>
    (l.write p x.next).bind fun l =>
      (l.cell i).bind fun x => l.setPrevOf x.next x.prev

@[simp] theorem head_setCell (l : Links ι δ) (i : ι) (x : Option (Cell ι δ)) :
    (l.setCell i x).head = l.head := rfl

@[simp] theorem cell_setCell (l : Links ι δ) (i : ι) (x : Option (Cell ι δ)) :
    (l.setCell i x).cell i = x := Function.update_self ..

theorem cell_setCell_of_ne (l : Links ι δ) {i j : ι} (x : Option (Cell ι δ)) (h : j ≠ i) :
    (l.setCell i x).cell j = l.cell j := Function.update_of_ne h ..

end Ops

end Links

namespace Slot

/-- The pointer to the first element behind those of the list. -/
def after (is : List ι) : Slot ι :=
  match is.getLast? with
  | none => .head
  | some i => .next i

@[simp] theorem after_nil : after ([] : List ι) = .head := rfl

@[simp] theorem after_concat (is : List ι) (i : ι) : after (is ++ [i]) = .next i := by
  simp [after]

theorem after_append_cons (is js : List ι) (i : ι) :
    after (is ++ i :: js) = after (i :: js) := by
  simp [after, List.getLast?_append, List.getLast?_cons]

theorem after_cons_cons (is : List ι) (i j : ι) : after (i :: j :: is) = after (j :: is) := by
  simp [after, List.getLast?_cons]

theorem after_eq_next {is : List ι} {i : ι} (h : after is = .next i) : i ∈ is := by
  simp only [after] at h
  split at h
  · cases h
  · rename_i j hj
    cases h
    exact List.mem_of_getLast? hj

theorem after_eq_head {is : List ι} (h : after is = .head) : is = [] := by
  simp only [after] at h
  split at h
  · simpa using ‹is.getLast? = none›
  · cases h

/-- In a list without duplicates two places have two pointers. -/
theorem after_ne {is js : List ι} {i : ι} (h : (is ++ i :: js).Nodup) :
    after (is ++ i :: js) ≠ after is := by
  intro heq
  cases hp : after is with
  | head =>
    have hnil : is ++ i :: js = [] := after_eq_head (heq.trans hp)
    simp at hnil
  | next j =>
    have hj : j ∈ i :: js := after_eq_next (after_append_cons is js i ▸ heq.trans hp)
    exact (List.nodup_append.1 h).2.2 j (after_eq_next hp) j hj rfl

end Slot

namespace Links

/-- The links run through the elements of the list, in its order. -/
structure Represents (l : Links ι δ) (is : List ι) : Prop where
  nodup : is.Nodup
  read_after : ∀ as bs, is = as ++ bs → l.read (.after as) = some bs.head?
  prev : ∀ as i bs, is = as ++ i :: bs → ∃ x, l.cell i = some x ∧ x.prev = some (.after as)

/-- What an operation on the links leaves as it was: the elements that are not in the list, and
what the elements hold. -/
structure Kept (is : List ι) (l l' : Links ι δ) : Prop where
  outside : ∀ j, j ∉ is → l'.cell j = l.cell j
  data : ∀ j, (l'.cell j).map Cell.data = (l.cell j).map Cell.data

variable {l l' : Links ι δ} {is : List ι} {i : ι} {x : Cell ι δ}

namespace Represents

theorem head (h : l.Represents is) : l.head = is.head? :=
  Option.some.inj (h.read_after [] is rfl)

theorem mem_cell (h : l.Represents is) (hi : i ∈ is) :
    ∃ x, l.cell i = some x ∧ x.prev ≠ none := by
  obtain ⟨as, bs, his⟩ := List.append_of_mem hi
  obtain ⟨x, hx, hp⟩ := h.prev as i bs his
  exact ⟨x, hx, by simp [hp]⟩

theorem next {as bs : List ι} (h : l.Represents is) (his : is = as ++ i :: bs)
    (hx : l.cell i = some x) : x.next = bs.head? := by
  have hr := h.read_after (as ++ [i]) bs (by simp [his])
  simpa [read, hx] using hr

/-- The list stays where neither the head nor the links of its elements change. -/
theorem congr (h : l.Represents is) (hhead : l'.head = l.head)
    (hcell : ∀ j ∈ is, ∀ x, l.cell j = some x →
      ∃ y, l'.cell j = some y ∧ y.next = x.next ∧ y.prev = x.prev) :
    l'.Represents is where
  nodup := h.nodup
  read_after as bs his := by
    have hr := h.read_after as bs his
    cases hp : Slot.after as with
    | head => simpa [hp, read, hhead] using hr
    | next j =>
      have hj : j ∈ is := his ▸ List.mem_append_left _ (Slot.after_eq_next hp)
      obtain ⟨x, hx, -⟩ := h.mem_cell hj
      obtain ⟨y, hy, hn, -⟩ := hcell j hj x hx
      simpa [hp, read, hx, hy, hn] using hr
  prev as i bs his := by
    obtain ⟨x, hx, hp⟩ := h.prev as i bs his
    obtain ⟨y, hy, -, hq⟩ := hcell i (by simp [his]) x hx
    exact ⟨y, hy, hq.trans hp⟩

theorem nil (h : l.head = none) : l.Represents [] where
  nodup := List.nodup_nil
  read_after as bs his := by
    obtain ⟨rfl, rfl⟩ := List.append_eq_nil_iff.1 his.symm
    simp [read, h]
  prev as i bs his := by simp at his

end Represents

section Ops

variable [DecidableEq ι]

/-- What an element holds beside its links is no matter. -/
theorem Represents.setCell {y : Cell ι δ} (h : l.Represents is) (hx : l.cell i = some x)
    (hy : y.next = x.next ∧ y.prev = x.prev) : (l.setCell i (some y)).Represents is := by
  refine h.congr rfl fun j _ z hz => ?_
  by_cases hj : j = i
  · subst hj
    obtain rfl : x = z := Option.some.inj (hx.symm.trans hz)
    exact ⟨y, cell_setCell .., hy⟩
  · exact ⟨z, (cell_setCell_of_ne l _ hj).trans hz, rfl, rfl⟩

/-- Elements that are not in the list may come and go. -/
theorem Represents.setCell_of_notMem (h : l.Represents is) (hi : i ∉ is)
    (o : Option (Cell ι δ)) : (l.setCell i o).Represents is :=
  h.congr rfl fun _ hj z hz =>
    ⟨z, (cell_setCell_of_ne l o (ne_of_mem_of_not_mem hj hi)).trans hz, rfl, rfl⟩

theorem modify_eq (h : l.cell i = some x) (f : Cell ι δ → Cell ι δ) :
    l.modify i f = some ⟨l.head, Function.update l.cell i (some (f x))⟩ := by
  simp [modify, setCell, h]

/-- The elements once the back link of `v` is `p`. -/
def backLinked (cell : ι → Option (Cell ι δ)) (v : Option ι) (p : Option (Slot ι)) (k : ι) :
    Option (Cell ι δ) :=
  if v = some k then (cell k).map fun x => x.withPrev p else cell k

theorem setPrevOf_eq (v : Option ι) (p : Option (Slot ι))
    (hv : ∀ j, v = some j → ∃ y, l.cell j = some y) :
    l.setPrevOf v p = some ⟨l.head, backLinked l.cell v p⟩ := by
  cases v with
  | none =>
    have hcell : backLinked l.cell none p = l.cell := by
      funext k
      simp [backLinked]
    simp [setPrevOf, hcell]
  | some j =>
    obtain ⟨y, hy⟩ := hv j rfl
    have hcell : Function.update l.cell j (some (y.withPrev p)) = backLinked l.cell (some j) p := by
      funext k
      by_cases hk : k = j
      · simp [hk, hy, backLinked]
      · simp [hk, Ne.symm hk, backLinked]
    simp [setPrevOf, setPrev, modify_eq hy, hcell]

theorem pushFront_eq (hx : l.cell i = some x)
    (hj : ∀ j, l.head = some j → j ≠ i ∧ ∃ y, l.cell j = some y) :
    l.pushFront i = some ⟨some i, Function.update (backLinked l.cell l.head (some (.next i))) i
      (some { x with next := l.head, prev := some .head })⟩ := by
  have hw : l.write (.next i) l.head =
      some ⟨l.head, Function.update l.cell i (some { x with next := l.head })⟩ := modify_eq hx _
  have hne : l.head ≠ some i := fun h => (hj i h).1 rfl
  simp only [pushFront, hw, Option.bind_eq_bind, Option.bind_some]
  rw [setPrevOf_eq l.head (some (.next i))]
  · simp only [Option.bind_some, setPrev]
    rw [modify_eq (x := { x with next := l.head }) (by simp [backLinked, hne])]
    simp only [Option.bind_some, write, Cell.withPrev]
    congr 2
    funext k
    by_cases hk : k = i
    · simp [hk]
    · simp [hk, backLinked]
  · intro j h
    obtain ⟨hji, y, hy⟩ := hj j h
    exact ⟨y, by simp [hji, hy]⟩

theorem popFront_eq (hx : l.cell i = some x)
    (hj : ∀ j, x.next = some j → j ≠ i ∧ ∃ y, l.cell j = some y) :
    l.popFront i = some ⟨x.next, Function.update (backLinked l.cell x.next (some .head)) i
      (some (x.withPrev none))⟩ := by
  have hne : x.next ≠ some i := fun h => (hj i h).1 rfl
  simp only [popFront, hx, Option.bind_eq_bind, Option.bind_some, write]
  have hp : Links.setPrevOf ⟨x.next, l.cell⟩ x.next (some .head) =
      some ⟨x.next, backLinked l.cell x.next (some .head)⟩ :=
    setPrevOf_eq x.next (some .head) fun j h => (hj j h).2
  simp only [hp, Option.bind_some, setPrev]
  exact modify_eq (by simp [backLinked, hne, hx]) _

omit [DecidableEq ι] in
/-- Without the element behind `as`, the pointer behind `as` and the back link of what follows
change, and nothing else. -/
theorem Represents.remove {as bs : List ι} (h : l.Represents (as ++ i :: bs))
    (hat : l'.read (.after as) = some bs.head?)
    (hread : ∀ p, p ≠ .after as → p ≠ .next i → l'.read p = l.read p)
    (hprev : ∀ k ∈ as ++ bs, ∀ x, l.cell k = some x → ∃ y, l'.cell k = some y ∧
      (bs.head? = some k → y.prev = some (.after as)) ∧ (bs.head? ≠ some k → y.prev = x.prev)) :
    l'.Represents (as ++ bs) where
  nodup := (List.nodup_middle.1 h.nodup).of_cons
  read_after cs ds hcs := by
    have hnodup : (as ++ bs).Nodup := (List.nodup_middle.1 h.nodup).of_cons
    have hi : i ∉ as ++ bs := (List.nodup_cons.1 (List.nodup_middle.1 h.nodup)).1
    have hcsi : Slot.after cs ≠ .next i := fun heq =>
      hi (hcs ▸ List.mem_append_left ds (Slot.after_eq_next heq))
    rcases List.append_eq_append_iff.1 hcs with ⟨es, rfl, rfl⟩ | ⟨es, rfl, rfl⟩
    · cases es with
      | nil => simpa using hat
      | cons j es =>
        have hne : Slot.after (as ++ j :: es) ≠ .after as :=
          Slot.after_ne (hnodup.sublist (by simp))
        have hr := h.read_after (as ++ i :: j :: es) ds (by simp)
        rw [Slot.after_append_cons, Slot.after_cons_cons, ← Slot.after_append_cons as] at hr
        rw [hread _ hne hcsi, hr]
    · cases es with
      | nil => simpa using hat
      | cons j es =>
        have hne : Slot.after (cs ++ j :: es) ≠ .after cs :=
          Slot.after_ne (hnodup.sublist (by simp))
        have hr := h.read_after cs (j :: es ++ i :: bs) (by simp)
        rw [hread _ hne.symm hcsi, hr]
        simp
  prev cs k ds hcs := by
    have hnodup : (as ++ bs).Nodup := (List.nodup_middle.1 h.nodup).of_cons
    rcases List.append_eq_append_iff.1 hcs with ⟨es, rfl, rfl⟩ | ⟨es, rfl, hds⟩
    · cases es with
      | nil =>
        obtain ⟨x, hx, -⟩ := h.mem_cell (i := k) (by simp)
        obtain ⟨y, hy, hfirst, -⟩ := hprev k (by simp) x hx
        exact ⟨y, hy, by simpa using hfirst (by simp)⟩
      | cons j es =>
        obtain ⟨x, hx, hp⟩ := h.prev (as ++ i :: j :: es) k ds (by simp)
        obtain ⟨y, hy, -, hrest⟩ := hprev k (by simp) x hx
        have hne : some j ≠ some k := by
          intro heq
          have hjk : j = k := Option.some.inj heq
          simp [hjk, List.nodup_append] at hnodup
        refine ⟨y, hy, ?_⟩
        rw [hrest (by simpa using hne), hp, Slot.after_append_cons, Slot.after_cons_cons,
          ← Slot.after_append_cons as]
    · cases es with
      | nil =>
        obtain rfl : k :: ds = bs := hds
        obtain ⟨x, hx, -⟩ := h.mem_cell (i := k) (by simp)
        obtain ⟨y, hy, hfirst, -⟩ := hprev k (by simp) x hx
        exact ⟨y, hy, by simpa using hfirst (by simp)⟩
      | cons j es =>
        obtain ⟨rfl, rfl⟩ := List.cons.inj hds
        obtain ⟨x, hx, hp⟩ := h.prev cs k (es ++ i :: bs) (by simp)
        obtain ⟨y, hy, -, hrest⟩ := hprev k (by simp) x hx
        have hne : bs.head? ≠ some k := by
          intro heq
          have hmem : k ∈ bs := List.mem_of_head? heq
          simp [List.nodup_append, hmem] at hnodup
        exact ⟨y, hy, (hrest hne).trans hp⟩

/-- Only the back link of `v` differs. -/
theorem read_backLinked (v w : Option ι) (p : Option (Slot ι)) (q : Slot ι) :
    (⟨w, backLinked l.cell v p⟩ : Links ι δ).read q = (⟨w, l.cell⟩ : Links ι δ).read q := by
  cases q with
  | head => rfl
  | next k =>
    simp only [read, backLinked]
    split
    · cases l.cell k <;> simp [Cell.withPrev]
    · rfl

theorem data_backLinked (v : Option ι) (p : Option (Slot ι)) (k : ι) :
    (backLinked l.cell v p k).map Cell.data = (l.cell k).map Cell.data := by
  simp only [backLinked]
  split
  · cases l.cell k <;> simp [Cell.withPrev]
  · rfl

/-- A new element goes to the front. -/
theorem Represents.pushFront (h : l.Represents is) (hx : l.cell i = some x) (hi : i ∉ is) :
    ∃ l', l.pushFront i = some l' ∧ l'.Represents (i :: is) ∧ Kept (i :: is) l l' := by
  have hmem : ∀ j, l.head = some j → j ∈ is := fun j hj => List.mem_of_head? (h.head ▸ hj)
  have hj : ∀ j, l.head = some j → j ≠ i ∧ ∃ y, l.cell j = some y := by
    intro j hj
    obtain ⟨y, hy, -⟩ := h.mem_cell (hmem j hj)
    exact ⟨ne_of_mem_of_not_mem (hmem j hj) hi, y, hy⟩
  refine ⟨_, pushFront_eq hx hj, ?_, ?_⟩
  · constructor
    · exact List.nodup_cons.2 ⟨hi, h.nodup⟩
    · intro as bs his
      cases as with
      | nil =>
        obtain rfl : bs = i :: is := his.symm
        simp [read]
      | cons a as =>
        obtain ⟨rfl, rfl⟩ := List.cons.inj his
        have hr := h.read_after as bs rfl
        cases as with
        | nil => simpa [Slot.after, read] using h.head
        | cons a as =>
          rw [Slot.after_cons_cons, ← hr]
          cases hp : Slot.after (a :: as) with
          | head => cases Slot.after_eq_head hp
          | next k =>
            have hk : k ≠ i :=
              ne_of_mem_of_not_mem (List.mem_append_left bs (Slot.after_eq_next hp)) hi
            have hback := read_backLinked (l := l) l.head l.head (some (.next i)) (.next k)
            simpa [read, hk] using hback
    · intro as k bs his
      cases as with
      | nil =>
        obtain ⟨rfl, rfl⟩ := List.cons.inj his
        simp
      | cons a as =>
        obtain ⟨rfl, rfl⟩ := List.cons.inj his
        have hk : k ≠ i := ne_of_mem_of_not_mem (by simp) hi
        obtain ⟨y, hy, hp⟩ := h.prev as k bs rfl
        cases as with
        | nil =>
          have hhead : l.head = some k := by simpa using h.head
          simp [hk, backLinked, hhead, hy, Cell.withPrev, Slot.after]
        | cons a as =>
          have hhead : l.head ≠ some k := by
            intro heq
            have hak : a = k := Option.some.inj (by simpa [heq] using h.head.symm)
            have hnodup := h.nodup
            simp [hak] at hnodup
          simp [hk, backLinked, hhead, hy, hp, Slot.after_cons_cons]
  · constructor
    · intro j hout
      obtain ⟨hji, hjs⟩ := List.mem_cons.not.1 hout |> not_or.1
      have hhead : l.head ≠ some j := fun heq => hjs (hmem j heq)
      simp [hji, backLinked, hhead]
    · intro j
      by_cases hji : j = i
      · simp [hji, hx]
      · simpa [hji] using data_backLinked (l := l) l.head (some (.next i)) j

/-- The element at the front is taken out, and its back link is null from then on. -/
theorem Represents.popFront (h : l.Represents (i :: is)) :
    ∃ l' x, l.popFront i = some l' ∧ l'.Represents is ∧ Kept (i :: is) l l' ∧
      l'.cell i = some x ∧ x.prev = none := by
  obtain ⟨x, hx, -⟩ := h.mem_cell List.mem_cons_self
  have hnext : x.next = is.head? := h.next (List.nil_append _).symm hx
  have hi : i ∉ is := (List.nodup_cons.1 h.nodup).1
  have hmem : ∀ j, x.next = some j → j ∈ is := fun j hj => List.mem_of_head? (hnext ▸ hj)
  have hj : ∀ j, x.next = some j → j ≠ i ∧ ∃ y, l.cell j = some y := by
    intro j hj
    obtain ⟨y, hy, -⟩ := h.mem_cell (List.mem_cons_of_mem i (hmem j hj))
    exact ⟨ne_of_mem_of_not_mem (hmem j hj) hi, y, hy⟩
  refine ⟨_, x.withPrev none, popFront_eq hx hj, ?_, ?_, by simp, rfl⟩
  · have h' : l.Represents ([] ++ i :: is) := h
    apply h'.remove
    · simp [read, hnext]
    · intro p hp hpi
      cases p with
      | head => simp at hp
      | next k =>
        have hk : k ≠ i := fun heq => hpi (heq ▸ rfl)
        have hback := read_backLinked (l := l) x.next l.head (some .head) (.next k)
        simpa [read, hk] using hback
    · intro k hk y hy
      have hki : k ≠ i := ne_of_mem_of_not_mem hk hi
      rw [← hnext]
      by_cases heq : x.next = some k
      · simp [hki, backLinked, heq, hy, Cell.withPrev]
      · simp [hki, backLinked, heq, hy]
  · constructor
    · intro j hout
      obtain ⟨hji, hjs⟩ := List.mem_cons.not.1 hout |> not_or.1
      have hne : x.next ≠ some j := fun heq => hjs (hmem j heq)
      simp [hji, backLinked, hne]
    · intro j
      by_cases hji : j = i
      · simp [hji, hx, Cell.withPrev]
      · simpa [hji] using data_backLinked (l := l) x.next (some .head) j

theorem write_spec {p : Slot ι} {w : Option ι} (v : Option ι) (hp : l.read p = some w) :
    ∃ l', l.write p v = some l' ∧ l'.read p = some v ∧ (∀ q, q ≠ p → l'.read q = l.read q) ∧
      (∀ j, p ≠ .next j → l'.cell j = l.cell j) ∧
      ∀ j x, l.cell j = some x → ∃ y, l'.cell j = some y ∧ y.prev = x.prev ∧ y.data = x.data := by
  cases p with
  | head =>
    refine ⟨⟨v, l.cell⟩, rfl, rfl, ?_, fun _ _ => rfl, fun j x hx => ⟨x, hx, rfl, rfl⟩⟩
    intro q hq
    cases q with
    | head => exact absurd rfl hq
    | next k => rfl
  | next i =>
    obtain ⟨x, hx, -⟩ := Option.map_eq_some_iff.1 hp
    refine ⟨_, modify_eq hx _, by simp [read], ?_, ?_, ?_⟩
    · intro q hq
      cases q with
      | head => rfl
      | next k =>
        have hk : k ≠ i := fun heq => hq (heq ▸ rfl)
        simp [read, hk]
    · intro j hj
      have hji : j ≠ i := fun heq => hj (heq ▸ rfl)
      simp [hji]
    · intro j y hy
      by_cases hji : j = i
      · obtain rfl : x = y := Option.some.inj (hx.symm.trans (hji ▸ hy))
        simp [hji]
      · exact ⟨y, by simp [hji, hy], rfl, rfl⟩

/-- An element of the list is taken out, wherever it is. -/
theorem Represents.unlink (h : l.Represents is) (hi : i ∈ is) :
    ∃ l', l.unlink i = some l' ∧ l'.Represents (is.erase i) ∧ Kept is l l' := by
  obtain ⟨as, bs, rfl⟩ := List.append_of_mem hi
  have hnodup : i ∉ as ++ bs := (List.nodup_cons.1 (List.nodup_middle.1 h.nodup)).1
  have herase : (as ++ i :: bs).erase i = as ++ bs := by
    rw [List.erase_append_right _ fun hmem => hnodup (List.mem_append_left bs hmem),
      List.erase_cons_head]
  obtain ⟨x, hx, hprev⟩ := h.prev as i bs rfl
  have hnext : x.next = bs.head? := h.next rfl hx
  have hmem : ∀ j, x.next = some j → j ∈ bs := fun j hj => List.mem_of_head? (hnext ▸ hj)
  have howner : ∀ j, Slot.after as = .next j → j ∈ as := fun j hj => Slot.after_eq_next hj
  have hpi : Slot.after as ≠ .next i := fun heq =>
    hnodup (List.mem_append_left bs (howner i heq))
  obtain ⟨l₁, hw, hat, hread, hcell, hback⟩ := write_spec x.next (h.read_after as (i :: bs) rfl)
  have hx₁ : l₁.cell i = some x := (hcell i hpi).trans hx
  have hj : ∀ j, x.next = some j → ∃ y, l₁.cell j = some y := by
    intro j hj
    obtain ⟨y, hy, -⟩ := h.mem_cell (i := j) (by simp [hmem j hj])
    obtain ⟨z, hz, -⟩ := hback j y hy
    exact ⟨z, hz⟩
  refine ⟨⟨l₁.head, backLinked l₁.cell x.next x.prev⟩, ?_, ?_, ?_⟩
  · simp [Links.unlink, hx, hprev, hw, hx₁, ← setPrevOf_eq x.next _ hj]
  · rw [herase]
    apply h.remove
    · rw [read_backLinked, ← hnext]
      exact hat
    · intro p hp hpi
      rw [read_backLinked]
      exact hread p hp
    · intro k hk y hy
      obtain ⟨z, hz, hzprev, -⟩ := hback k y hy
      rw [← hnext]
      by_cases heq : x.next = some k
      · simp [backLinked, heq, hz, hprev, Cell.withPrev]
      · simp [backLinked, heq, hz, hzprev]
  · constructor
    · intro j hout
      have hne : x.next ≠ some j := fun heq => hout (by simp [hmem j heq])
      have hpj : Slot.after as ≠ .next j := fun heq => hout (by simp [howner j heq])
      simp [backLinked, hne, hcell j hpj]
    · intro j
      rw [data_backLinked]
      cases hlj : l.cell j with
      | none =>
        have hpj : Slot.after as ≠ .next j := by
          intro heq
          obtain ⟨y, hy, -⟩ := h.mem_cell (i := j) (by simp [howner j heq])
          simp [hlj] at hy
        simp [hcell j hpj, hlj]
      | some y =>
        obtain ⟨z, hz, -, hdata⟩ := hback j y hlj
        simp [hz, hdata]

end Ops

end Links

end Intrusive
