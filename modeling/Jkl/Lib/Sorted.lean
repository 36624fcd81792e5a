import Mathlib.Data.List.Basic
import Mathlib.Tactic.Common

/-! Insertion into a list that is kept in increasing order. -/
namespace Sorted

variable {α : Type*}

/-- A strict order, decided as a comparison function decides it. Two elements of which
neither is less than the other take the same place. -/
structure Order (α : Type*) where
  lt : α → α → Bool
  irrefl : ∀ a, lt a a = false
  trans : ∀ a b c, lt a b = true → lt b c = true → lt a c = true

/-- The order of a key. -/
def Order.on {β : Type*} (o : Order α) (key : β → α) : Order β where
  lt a b := o.lt (key a) (key b)
  irrefl a := o.irrefl (key a)
  trans a b c := o.trans (key a) (key b) (key c)

variable (o : Order α) (merge : α → α → α)

/-- `merge old new` decides what an occupied place holds afterwards. -/
def place (x : α) : List α → List α
  | [] => [x]
  | y :: ys =>
    if o.lt y x then y :: place x ys
    else if o.lt x y then x :: y :: ys
    else merge y x :: ys

/-- All elements in increasing order. -/
def Increasing (l : List α) : Prop := l.Pairwise (fun a b => o.lt a b = true)

instance (l : List α) : Decidable (Increasing o l) := by
  unfold Increasing; infer_instance

theorem place_ne_nil (x : α) (l : List α) : place o merge x l ≠ [] := by
  cases l with
  | nil => simp [place]
  | cons y ys => unfold place; split_ifs <;> simp

theorem length_place_le (x : α) (l : List α) : (place o merge x l).length ≤ l.length + 1 := by
  induction l with
  | nil => simp [place]
  | cons y ys ih =>
    unfold place
    split_ifs
    · simpa using ih
    · simp
    · simp

theorem place_of_forall_lt {x : α} {l : List α} (h : ∀ y ∈ l, o.lt y x = true) :
    place o merge x l = l ++ [x] := by
  induction l with
  | nil => rfl
  | cons y ys ih =>
    have hy : o.lt y x = true := h y (by simp)
    rw [place, if_pos hy, ih (fun z hz => h z (by simp [hz]))]
    rfl

theorem foldl_place_append {l acc : List α} (h : Increasing o (acc ++ l)) :
    l.foldl (fun s x => place o merge x s) acc = acc ++ l := by
  induction l generalizing acc with
  | nil => simp
  | cons x l ih =>
    have hx : ∀ y ∈ acc, o.lt y x = true := fun y hy =>
      (List.pairwise_append.mp h).2.2 y hy x (by simp)
    rw [List.foldl_cons, place_of_forall_lt o merge hx, ih (by simpa using h)]
    simp

/-- Elements that arrive in order stay as they are. -/
theorem foldl_place {l : List α} (h : Increasing o l) :
    l.foldl (fun s x => place o merge x s) [] = l :=
  foldl_place_append o merge (by simpa using h)

section Keep

/- An occupied place keeps what it holds: the elements make a set. -/

variable {o} {x y : α} {l : List α}

/-- Neither of two elements is less than the other. -/
def Order.Tied (o : Order α) (a b : α) : Prop := o.lt a b = false ∧ o.lt b a = false

instance (a b : α) : Decidable (o.Tied a b) := by
  unfold Order.Tied; infer_instance

theorem mem_place_keep (h : y ∈ place o (fun old _ => old) x l) : y = x ∨ y ∈ l := by
  induction l with
  | nil => simpa [place] using h
  | cons z zs ih =>
    unfold place at h
    split_ifs at h
    · cases List.mem_cons.mp h with
      | inl hz => simp [hz]
      | inr hzs =>
        have := ih hzs
        simp only [List.mem_cons]
        tauto
    · simpa using h
    · exact Or.inr h

theorem mem_place_keep_of_mem (h : y ∈ l) : y ∈ place o (fun old _ => old) x l := by
  induction l with
  | nil => simp at h
  | cons z zs ih =>
    unfold place
    split_ifs
    · cases List.mem_cons.mp h with
      | inl hz => simp [hz]
      | inr hzs => exact List.mem_cons_of_mem _ (ih hzs)
    · exact List.mem_cons_of_mem _ h
    · exact h

/-- The new element is there, or one that is tied with it. -/
theorem exists_tied_place_keep (x : α) (l : List α) :
    ∃ y ∈ place o (fun old _ => old) x l, o.Tied y x := by
  have hself : o.Tied x x := ⟨o.irrefl x, o.irrefl x⟩
  induction l with
  | nil => exact ⟨x, by simp [place], hself⟩
  | cons z zs ih =>
    unfold place
    split_ifs with h1 h2
    · obtain ⟨y, hy, ht⟩ := ih
      exact ⟨y, List.mem_cons_of_mem _ hy, ht⟩
    · exact ⟨x, by simp, hself⟩
    · exact ⟨z, by simp, by simpa using h1, by simpa using h2⟩

theorem increasing_place_keep (h : Increasing o l) :
    Increasing o (place o (fun old _ => old) x l) := by
  induction l with
  | nil => simp [place, Increasing]
  | cons z zs ih =>
    obtain ⟨hz, hzs⟩ := List.pairwise_cons.mp h
    unfold place
    split_ifs with h1 h2
    · apply List.pairwise_cons.mpr
      constructor
      · intro y hy
        cases mem_place_keep hy with
        | inl hx => rw [hx]; exact h1
        | inr hmem => exact hz y hmem
      · exact ih hzs
    · apply List.pairwise_cons.mpr
      constructor
      · intro y hy
        cases List.mem_cons.mp hy with
        | inl hyz => rw [hyz]; exact h2
        | inr hmem => exact o.trans x z y h2 (hz y hmem)
      · exact h
    · exact h

/-- The list grows unless an element of it is tied with the new one. -/
theorem length_place_keep (h : Increasing o l) :
    (place o (fun old _ => old) x l).length =
      if ∃ y ∈ l, o.Tied y x then l.length else l.length + 1 := by
  induction l with
  | nil => simp [place]
  | cons z zs ih =>
    obtain ⟨hz, hzs⟩ := List.pairwise_cons.mp h
    have hsplit : (∃ y ∈ z :: zs, o.Tied y x) ↔ o.Tied z x ∨ ∃ y ∈ zs, o.Tied y x := by simp
    simp only [hsplit]
    unfold place
    split_ifs with h1 h2 h3 h4 h5
    · have hno : ¬ o.Tied z x := by simp [Order.Tied, h1]
      rw [List.length_cons, ih hzs, if_pos (h2.resolve_left hno), List.length_cons]
    · rw [List.length_cons, ih hzs, if_neg (fun hy => h2 (Or.inr hy)), List.length_cons]
    · exfalso
      rcases h4 with ht | ⟨y, hy, ht⟩
      · simp [Order.Tied, h3] at ht
      · have hlt := o.trans x z y h3 (hz y hy)
        simp [Order.Tied, hlt] at ht
    · rfl
    · rfl
    · exact absurd (Or.inl ⟨by simpa using h1, by simpa using h3⟩) h5

/-- `vs` is the set of `ds`: in increasing order, of elements of `ds` only, and with one that is
tied with each of them. -/
structure IsSetOf (o : Order α) (vs ds : List α) : Prop where
  increasing : Increasing o vs
  subset : ∀ v ∈ vs, v ∈ ds
  covers : ∀ d ∈ ds, ∃ v ∈ vs, o.Tied v d

theorem IsSetOf.length_le {vs ds : List α} (h : IsSetOf o vs ds) : vs.length ≤ ds.length := by
  have hnodup : vs.Nodup := by
    apply h.increasing.imp
    intro a b hlt heq
    rw [heq, o.irrefl] at hlt
    cases hlt
  exact hnodup.length_le_of_subset h.subset

theorem isSetOf_foldl_place (ds : List α) :
    IsSetOf o (ds.foldl (fun s x => place o (fun old _ => old) x s) []) ds := by
  have hall : ∀ acc pre, IsSetOf o acc pre →
      IsSetOf o (ds.foldl (fun s x => place o (fun old _ => old) x s) acc) (pre ++ ds) := by
    induction ds with
    | nil =>
      intro acc pre h
      simpa using h
    | cons d ds ih =>
      intro acc pre h
      have hnext : IsSetOf o (place o (fun old _ => old) d acc) (pre ++ [d]) := by
        constructor
        · exact increasing_place_keep h.increasing
        · intro v hv
          cases mem_place_keep hv with
          | inl hd => simp [hd]
          | inr hmem => simp [h.subset v hmem]
        · intro e he
          cases List.mem_append.mp he with
          | inl hpre =>
            obtain ⟨v, hv, ht⟩ := h.covers e hpre
            exact ⟨v, mem_place_keep_of_mem hv, ht⟩
          | inr hd =>
            rw [List.mem_singleton.mp hd]
            exact exists_tied_place_keep d acc
      have hrest := ih _ _ hnext
      rw [List.append_assoc] at hrest
      exact hrest
  have hnil : IsSetOf o ([] : List α) [] := ⟨List.Pairwise.nil, by simp, by simp⟩
  exact hall [] [] hnil

theorem length_foldl_place_le (ds acc : List α) :
    (ds.foldl (fun s x => place o (fun old _ => old) x s) acc).length ≤ acc.length + ds.length := by
  induction ds generalizing acc with
  | nil => simp
  | cons d ds ih =>
    have hone := length_place_le o (fun old _ => old) d acc
    have hrest := ih (place o (fun old _ => old) d acc)
    rw [List.foldl_cons, List.length_cons]
    omega

/-- None of the elements is lost exactly if no two of them are tied. -/
theorem length_foldl_place_eq_iff (ds : List α) {acc : List α} (h : Increasing o acc) :
    (ds.foldl (fun s x => place o (fun old _ => old) x s) acc).length = acc.length + ds.length ↔
      ds.Pairwise (fun a b => ¬ o.Tied a b) ∧ ∀ a ∈ acc, ∀ d ∈ ds, ¬ o.Tied a d := by
  induction ds generalizing acc with
  | nil => simp
  | cons d ds ih =>
    have hlen := length_place_keep (x := d) h
    have hle := length_foldl_place_le (o := o) ds (place o (fun old _ => old) d acc)
    rw [List.foldl_cons, List.length_cons]
    by_cases hd : ∃ y ∈ acc, o.Tied y d
    · rw [if_pos hd] at hlen
      constructor
      · intro heq
        omega
      · intro hno
        obtain ⟨y, hy, ht⟩ := hd
        exact absurd ht (hno.2 y hy d (by simp))
    · rw [if_neg hd] at hlen
      have hmem : ∀ y, y ∈ place o (fun old _ => old) d acc ↔ y = d ∨ y ∈ acc := by
        intro y
        constructor
        · exact mem_place_keep
        · intro hy
          cases hy with
          | inr hacc => exact mem_place_keep_of_mem hacc
          | inl hyd =>
            obtain ⟨z, hz, ht⟩ := exists_tied_place_keep (o := o) d acc
            cases mem_place_keep hz with
            | inl hzd =>
              rw [hzd] at hz
              rwa [hyd]
            | inr hacc => exact absurd ⟨z, hacc, ht⟩ hd
      have hrest := ih (increasing_place_keep (x := d) h)
      rw [hlen] at hrest
      have hsum : acc.length + (ds.length + 1) = acc.length + 1 + ds.length := by omega
      rw [hsum, hrest, List.pairwise_cons]
      simp only [hmem, List.mem_cons]
      constructor
      · intro ⟨hpair, hall⟩
        refine ⟨⟨fun a ha => hall d (Or.inl rfl) a ha, hpair⟩, fun a ha e he => ?_⟩
        cases he with
        | inl hed => rw [hed]; exact fun ht => hd ⟨a, ha, ht⟩
        | inr hmem => exact hall a (Or.inr ha) e hmem
      · intro ⟨⟨hhead, hpair⟩, hall⟩
        refine ⟨hpair, fun a ha e he => ?_⟩
        cases ha with
        | inl had => rw [had]; exact hhead e he
        | inr hacc => exact hall a hacc e (Or.inr he)

end Keep

end Sorted
