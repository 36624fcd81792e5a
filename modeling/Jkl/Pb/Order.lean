import Jkl.Pb.Insertion
import Mathlib.Data.List.Nodup

/-! The fields of a message in another order. -/
namespace Jkl.Pb
open Base128

variable {m : Machine} {flds : List Fld}

/-- The tag is that of member `i`, or of a member of its oneof. -/
def Owns (flds : List Fld) (i tag : ℕ) : Prop :=
  ∃ f g, flds[i]? = some f ∧ g ∈ f.injectedFlds ∧ g.tag = tag

/-- What is moved as a whole: a field that no case matches, one occurrence of a field, or a run. -/
inductive Item (flds : List Fld) : List Rec → Option ℕ → Prop where
  | unknown {r : Rec} (h : ∀ i, ¬ Owns flds i r.tag) : Item flds [r] none
  | single {r : Rec} {i : ℕ} (h : Owns flds i r.tag) : Item flds [r] (some i)
  | run {B : List Rec} {i tag : ℕ} (hne : B ≠ []) (htags : ∀ r ∈ B, r.tag = tag)
      (h : Owns flds i tag) (hrun : RunTag flds tag) : Item flds B (some i)

/-- The records of the items. -/
def records (items : List (List Rec × Option ℕ)) : List Rec := (items.map Prod.fst).flatten

/-- The members that the items are for. -/
def membersIn (items : List (List Rec × Option ℕ)) : List ℕ := items.filterMap Prod.snd

section Owners

theorem tag_div (g : Fld) : g.tag / 8 = g.id := by
  have hcode : g.wireType.code < 8 := by cases g.wireType <;> decide
  rw [Fld.tag, mkTag_eq]
  omega

theorem ids_nodup_of_wf {id : ℕ} {p : Params} (h : (Fld.message id p flds).wf = true) :
    (ids flds).Nodup := by
  have hwf : (Fld.message id p flds).wellFormed = true := Fld.all_self h
  simp only [Fld.wellFormed, Bool.and_eq_true, decide_eq_true_eq] at hwf
  exact hwf.1.2

theorem Owns.unique (hids : (ids flds).Nodup) {i j tag : ℕ} (hi : Owns flds i tag)
    (hj : Owns flds j tag) : i = j := by
  obtain ⟨f, g, hf, hg, htag⟩ := hi
  obtain ⟨f', g', hf', hg', htag'⟩ := hj
  have hmap : ids flds = flds.flatMap fun f => f.injectedFlds.map Fld.id := by
    simp [ids, List.map_flatMap]
  rw [hmap, List.nodup_flatMap] at hids
  have hdisj := List.pairwise_iff_getElem.mp hids.2
  have hid : g.id = g'.id := by rw [← tag_div, ← tag_div, htag, htag']
  obtain ⟨hi, rfl⟩ := List.getElem?_eq_some_iff.mp hf
  obtain ⟨hj, rfl⟩ := List.getElem?_eq_some_iff.mp hf'
  have hmem : g.id ∈ (flds[i]).injectedFlds.map Fld.id := List.mem_map_of_mem hg
  have hmem' : g.id ∈ (flds[j]).injectedFlds.map Fld.id := hid ▸ List.mem_map_of_mem hg'
  rcases lt_trichotomy i j with hlt | heq | hlt
  · exact absurd hmem' (hdisj i j hi hj hlt hmem)
  · exact heq
  · exact absurd hmem (hdisj j i hj hi hlt hmem')

theorem owns_of_case {c : Case} (hc : c ∈ casesOf m flds) : Owns flds c.idx c.tag := by
  obtain ⟨j, f, g, hj, hidx, htag, hg⟩ := mem_casesFrom hc
  rw [Nat.zero_add] at hidx
  exact ⟨f, g, hidx ▸ hj, (List.of_mem_zip hg).1, htag.symm⟩

theorem exists_case {i k tag : ℕ} (h : Owns flds i tag) :
    ∃ c ∈ casesFrom k flds (Fld.injectedFldReads m flds), c.tag = tag := by
  obtain ⟨f, g, hf, hg, htag⟩ := h
  induction flds generalizing i k with
  | nil => simp at hf
  | cons f' fs ih =>
    rw [Fld.injectedFldReads, casesFrom]
    cases i with
    | zero =>
      obtain rfl : f' = f := by simpa using hf
      obtain ⟨j, hj, hgj⟩ := List.getElem_of_mem hg
      have hj' : j < (f'.injectedFldRead m).length := by rwa [length_injectedFldRead]
      have hzip : (g, (f'.injectedFldRead m)[j]) ∈ f'.injectedFlds.zip (f'.injectedFldRead m) := by
        rw [List.mem_iff_getElem]
        exact ⟨j, by simp [hj, hj'], by simp [hgj]⟩
      exact ⟨_, List.mem_append_left _ (List.mem_map_of_mem hzip), htag⟩
    | succ i =>
      obtain ⟨c, hc, hct⟩ := ih (i := i) (k := k + 1) (by simpa using hf)
      exact ⟨c, List.mem_append_right _ hc, hct⟩

theorem ownCase_of_owns (hids : (ids flds).Nodup) {i tag : ℕ} (h : Owns flds i tag) :
    ∃ c, ownCase (casesOf m flds) tag = some c ∧ c.idx = i := by
  obtain ⟨c, hc, htag⟩ := exists_case (m := m) (k := 0) h
  cases hown : ownCase (casesOf m flds) tag with
  | none =>
    have hnone := List.find?_eq_none.mp hown c hc
    simp [htag] at hnone
  | some c' =>
    obtain ⟨hc', htag'⟩ := ownCase_eq_some hown
    exact ⟨c', rfl, (owns_of_case hc').unique hids (htag' ▸ h)⟩

theorem ownCase_of_not_owns {tag : ℕ} (h : ∀ i, ¬ Owns flds i tag) :
    ownCase (casesOf m flds) tag = none := by
  cases hown : ownCase (casesOf m flds) tag with
  | none => rfl
  | some c =>
    obtain ⟨hc, htag⟩ := ownCase_eq_some hown
    exact absurd (htag ▸ owns_of_case hc) (h c.idx)

/-- The next record is not of member `i`. -/
def Leaves (flds : List Fld) (i : ℕ) (rest : List Rec) : Prop :=
  ∀ r ∈ rest.head?, ¬ Owns flds i r.tag

/-- What goes on with a run of member `i` is of member `i`. -/
theorem owns_of_goesOn (hflds : Compile flds) {i : ℕ} {B : List Rec} (hB : GoesOn flds i B) :
    ∀ r ∈ B, Owns flds i r.tag := by
  intro r hr
  obtain ⟨elem, c, p, hf, hp, htag⟩ := hB r hr
  have hwire : elem.wireType = .lenDlm := by simpa [Fld.isPacked] using hp
  refine ⟨_, .repeated elem c p, hf, by simp [Fld.injectedFlds], ?_⟩
  rw [Rec.tag, htag, varintBytes_eq (elem_tag_lt hflds (List.mem_of_getElem? hf)), value_encode]
  show mkTag elem.id .lenDlm = mkTag elem.id elem.wireType
  rw [hwire]

theorem Leaves.not_goesOn (hflds : Compile flds) {i : ℕ} {rest : List Rec}
    (h : Leaves flds i rest) : ∀ r ∈ rest.head?, ¬GoesOn flds i [r] := fun r hr hgoes =>
  h r hr (owns_of_goesOn hflds hgoes r List.mem_cons_self)

end Owners

section Blocks

/-- From any struct that has the same member `i` the records `B` of an item, of which `Z` is left
behind them, put `v` there, and mark it as read if `b`. -/
def Puts (m : Machine) (flds : List Fld) (vs : List Val) (B Z : List Rec) (i : ℕ) (v : Val)
    (b : Bool) : Prop :=
  ∀ rest, Leaves flds i rest → ∀ n vs' bits r, vs'.length = vs.length →
    vs'.getD i .none = vs.getD i .none →
    EndsOn m flds (Z ++ rest) (n + (Rec.join B).length) (vs'.set i v) (bits.mark i b) r →
    EndsOn m flds (B ++ (Z ++ rest)) n vs' bits r

theorem bits_mark_mark (bits : Bits) (i : ℕ) (b b' : Bool) :
    (bits.mark i b).mark i b' = bits.mark i (b || b') := by
  cases b with
  | false => rfl
  | true =>
    cases b' with
    | false => rfl
    | true =>
      funext j
      simp [Bits.mark, Bits.set]

variable {vs : List Val} {bits : Bits} {n k i j : ℕ} {a : List Val × Bits} {r : Rec} {v v' : Val}
  {b b' : Bool} {B B' Z : List Rec}

theorem Puts.append (h : Puts m flds vs B (B' ++ Z) i v b)
    (h' : Puts m flds (vs.set i v) B' Z i v' b') : Puts m flds vs (B ++ B') Z i v' (b || b') := by
  intro rest hleaves n vs' bits r hsize hsame hends
  have hcount : n + (Rec.join B).length + (Rec.join B').length =
      n + (Rec.join (B ++ B')).length := by
    rw [Rec.join_append, List.length_append, Nat.add_assoc]
  have hsame' : (vs'.set i v).getD i .none = (vs.set i v).getD i .none := by
    rw [Sim.getD_set, Sim.getD_set, hsame, hsize]
  have hrest := h' rest hleaves (n + (Rec.join B).length) (vs'.set i v) (bits.mark i b) r
    (by simp [hsize]) hsame' (by rwa [hcount, List.set_set, bits_mark_mark])
  rw [List.append_assoc]
  have hall := h rest hleaves n vs' bits r hsize hsame
  rw [List.append_assoc] at hall
  exact hall hrest

/-- A turn puts its value, where an item goes on with what does not go on with the run. -/
theorem Steps.puts (hflds : Compile flds) (h : Steps m flds r B i (vs.getD i .none) j v b)
    (hZ : ∀ r' ∈ Z.head?, ¬GoesOn flds i [r']) :
    Puts m flds vs (r :: B.take j) (B.drop j ++ Z) i v b := by
  intro rest hleaves n vs' bits q _ hsame hends
  have hhead : ∀ r' ∈ (Z ++ rest).head?, ¬GoesOn flds i [r'] := by
    cases Z with
    | nil => exact hleaves.not_goesOn hflds
    | cons z Z => exact hZ
  have hturn := h (Z ++ rest) n vs' bits hsame (endsAt_of_head hflds hhead)
  have hrun : B.take j ++ (B.drop j ++ (Z ++ rest)) = B ++ (Z ++ rest) := by
    rw [← List.append_assoc, List.take_append_drop]
  rw [List.append_assoc] at hends ⊢
  rw [List.cons_append, hrun]
  exact .next hturn hends

/-- A block of records of member `i` ends where the next item begins. -/
theorem block_prefix {B B₁ rest rs₂ : List Rec} {i : ℕ} (howns : ∀ r ∈ B₁, Owns flds i r.tag)
    (hleaves : Leaves flds i rest) (h : B ++ rest = B₁ ++ rs₂) :
    ∃ B₂, B = B₁ ++ B₂ ∧ rs₂ = B₂ ++ rest := by
  rcases List.append_eq_append_iff.mp h with ⟨a', hB₁, hrest⟩ | ⟨c', hB, hrs₂⟩
  · cases a' with
    | nil => exact ⟨[], by simpa using hB₁.symm, by simpa using hrest.symm⟩
    | cons r a' =>
      exact absurd (howns r (by rw [hB₁]; simp)) (hleaves r (by rw [hrest]; rfl))
  · exact ⟨c', hB, hrs₂⟩

/-- Records of one tag that member `i` owns are read to it, in one turn or in several. -/
theorem puts_of_ends (hm : m.Regional) (hflds : Compile flds) (hids : (ids flds).Nodup)
    (hrefill : m.traps .refill = false) (hswallow : m.traps .swallow = false) {B rest : List Rec}
    {tag : ℕ} (hne : B ≠ []) (htags : ∀ r ∈ B, r.tag = tag) (hown : Owns flds i tag)
    (hcut : ∀ r ∈ B, ¬CutShort flds r) (hleaves : Leaves flds i rest)
    (h : EndsOn m flds (B ++ rest) n vs bits (.ok k a)) :
    ∃ v b n', Puts m flds vs B [] i v b ∧
      EndsOn m flds rest n' (vs.set i v) (bits.mark i b) (.ok k a) := by
  induction hlen : B.length using Nat.strong_induction_on generalizing B vs bits n with
  | _ len ih =>
    obtain ⟨r, B, rfl⟩ := List.exists_cons_of_ne_nil hne
    have hr : r.tag = tag := htags r List.mem_cons_self
    obtain ⟨c, hc, rfl⟩ := ownCase_of_owns (m := m) hids (hr ▸ hown)
    obtain ⟨B₁, rest₀, j, v, b, hsplit, hB₁, hhead, hstep, hnext⟩ :=
      steps_of_ends hm hflds hrefill hswallow hc (hcut r List.mem_cons_self) h
    obtain ⟨B₂, rfl, rfl⟩ := block_prefix (owns_of_goesOn hflds hB₁) hleaves hsplit
    have hputs : Puts m flds vs (r :: B₁.take j) (B₁.drop j ++ B₂) c.idx v b := by
      refine hstep.puts hflds fun r' hr' => hhead r' ?_
      rw [List.head?_append, Option.mem_def.mp hr']
      rfl
    have hall : r :: (B₁ ++ B₂) = r :: B₁.take j ++ (B₁.drop j ++ B₂) := by
      rw [List.cons_append, ← List.append_assoc, List.take_append_drop]
    rw [← List.append_assoc] at hnext
    rw [hall] at htags hcut hlen ⊢
    generalize B₁.drop j ++ B₂ = left at *
    by_cases hleft : left = []
    · subst hleft
      rw [List.append_nil]
      exact ⟨v, b, _, hputs, hnext⟩
    · obtain ⟨v₂, b₂, n', hputs₂, hends₂⟩ := ih left.length
        (by rw [← hlen, List.length_append, List.length_cons]; omega) hleft
        (fun r' hr' => htags r' (List.mem_append_right _ hr'))
        (fun r' hr' => hcut r' (List.mem_append_right _ hr')) hnext rfl
      rw [List.set_set, bits_mark_mark] at hends₂
      rw [← List.append_nil left] at hputs
      exact ⟨v₂, b || b₂, n', hputs.append hputs₂, hends₂⟩

end Blocks

section Items

/-- A member gets its value, and its mark if it was read. -/
def store (val : ℕ → Val × Bool) (a : List Val × Bits) (i : ℕ) : List Val × Bits :=
  (a.1.set i (val i).1, a.2.mark i (val i).2)

theorem bits_mark_comm (bits : Bits) (i j : ℕ) (b b' : Bool) :
    (bits.mark i b).mark j b' = (bits.mark j b').mark i b := by
  cases b with
  | false => rfl
  | true =>
    cases b' with
    | false => rfl
    | true =>
      funext k
      show ((bits.set i).set j) k = ((bits.set j).set i) k
      simp only [Bits.set]
      cases decide (k = i) <;> cases decide (k = j) <;> rfl

theorem store_comm (val : ℕ → Val × Bool) (a : List Val × Bits) (i j : ℕ) :
    store val (store val a i) j = store val (store val a j) i := by
  have hvals : (a.1.set i (val i).1).set j (val j).1 = (a.1.set j (val j).1).set i (val i).1 := by
    by_cases hij : i = j
    · rw [hij]
    · exact List.set_comm _ _ hij
  rw [store, store, store, store, bits_mark_comm, hvals]

/-- A value for a member that is not stored does not matter. -/
theorem foldl_store_update {val : ℕ → Val × Bool} {is : List ℕ} {i : ℕ} (h : i ∉ is)
    (x : Val × Bool) (a : List Val × Bits) :
    is.foldl (store (Function.update val i x)) a = is.foldl (store val) a := by
  induction is generalizing a with
  | nil => rfl
  | cons j js ih =>
    rw [List.mem_cons, not_or] at h
    have hj : store (Function.update val i x) a j = store val a j := by
      rw [store, store, Function.update_of_ne (Ne.symm h.1)]
    rw [List.foldl_cons, List.foldl_cons, hj, ih h.2]

/-- What an item does to the struct, wherever it stands. -/
def Moves (m : Machine) (flds : List Fld) (vs : List Val) (val : ℕ → Val × Bool)
    (item : List Rec × Option ℕ) : Prop :=
  match item.2 with
  | none => ∀ rest n vs' bits r, EndsOn m flds rest (n + (Rec.join item.1).length) vs' bits r →
      EndsOn m flds (item.1 ++ rest) n vs' bits r
  | some i => Puts m flds vs item.1 [] i (val i).1 (val i).2

theorem Puts.congr {vs vs' : List Val} {B : List Rec} {i : ℕ} {v : Val} {b : Bool}
    (h : Puts m flds vs B [] i v b) (hsize : vs.length = vs'.length)
    (hsame : vs.getD i .none = vs'.getD i .none) : Puts m flds vs' B [] i v b := by
  intro rest hleaves n vs₂ bits r hsize₂ hsame₂ hends
  exact h rest hleaves n vs₂ bits r (hsize₂.trans hsize.symm) (hsame₂.trans hsame.symm) hends

/-- An item of another member does the same before member `i` was stored. -/
theorem Moves.before {vs : List Val} {val : ℕ → Val × Bool} {item : List Rec × Option ℕ} {i : ℕ}
    {v : Val} (x : Val × Bool) (h : Moves m flds (vs.set i v) val item) (hi : item.2 ≠ some i) :
    Moves m flds vs (Function.update val i x) item := by
  obtain ⟨B, o⟩ := item
  cases o with
  | none => exact h
  | some j =>
    have hij : j ≠ i := fun heq => hi (by rw [heq])
    show Puts m flds vs B [] j (Function.update val i x j).1 (Function.update val i x j).2
    rw [Function.update_of_ne hij]
    exact Puts.congr h (by simp) (by rw [Sim.getD_set, if_neg (by simp [hij.symm])])

/-- The fields are items, and no two of them are for the same member. -/
structure Arranged (flds : List Fld) (items : List (List Rec × Option ℕ)) : Prop where
  item : ∀ it ∈ items, Item flds it.1 it.2
  nodup : (membersIn items).Nodup

theorem Arranged.tail {it : List Rec × Option ℕ} {items : List (List Rec × Option ℕ)}
    (h : Arranged flds (it :: items)) : Arranged flds items := by
  constructor
  · intro it' hit'
    exact h.item it' (List.mem_cons_of_mem _ hit')
  · have hnodup := h.nodup
    unfold membersIn at hnodup ⊢
    cases hi : it.2 with
    | none => rwa [List.filterMap_cons_none hi] at hnodup
    | some i =>
      rw [List.filterMap_cons_some hi] at hnodup
      exact (List.nodup_cons.mp hnodup).2

theorem membersIn_some {B : List Rec} {i : ℕ} {items : List (List Rec × Option ℕ)} :
    membersIn ((B, some i) :: items) = i :: membersIn items := rfl

theorem records_cons {B : List Rec} {o : Option ℕ} {items : List (List Rec × Option ℕ)} :
    records ((B, o) :: items) = B ++ records items := rfl

theorem Item.head {B : List Rec} {o : Option ℕ} (h : Item flds B o) :
    ∃ r B', B = r :: B' ∧ (o = none → ∀ i, ¬ Owns flds i r.tag) ∧
      ∀ i, o = some i → Owns flds i r.tag := by
  cases h with
  | unknown h => exact ⟨_, [], rfl, fun _ => h, nofun⟩
  | single h => exact ⟨_, [], rfl, nofun, fun i hi => by cases hi; exact h⟩
  | run hne htags h hrun =>
    obtain ⟨r, B', rfl⟩ := List.exists_cons_of_ne_nil hne
    refine ⟨r, B', rfl, nofun, fun i hi => ?_⟩
    cases hi
    rw [htags r List.mem_cons_self]
    exact h

/-- Behind an item comes a record of another member. -/
theorem Arranged.leaves (hids : (ids flds).Nodup) {B : List Rec} {i : ℕ}
    {items : List (List Rec × Option ℕ)} (h : Arranged flds ((B, some i) :: items)) :
    Leaves flds i (records items) := by
  intro r hr howns
  cases items with
  | nil => nomatch hr
  | cons it items =>
    obtain ⟨B', o⟩ := it
    obtain ⟨r', B₂, rfl, hnone, hsome⟩ := (h.item (B', o) (by simp)).head
    obtain rfl : r' = r := by simpa [records_cons] using hr
    cases o with
    | none => exact hnone rfl i howns
    | some j =>
      have hnodup := h.nodup
      rw [membersIn_some, membersIn_some] at hnodup
      have hij : i = j := howns.unique hids (hsome j rfl)
      exact (List.nodup_cons.mp hnodup).1 (by simp [hij])

section Runs

variable {vs : List Val} {bits : Bits} {n k : ℕ} {a : List Val × Bits}

theorem endsOn_nil {r : MsgRes} : EndsOn m flds [] n vs bits r ↔ .ok n (vs, bits) = r :=
  Loop.ends_iff_of_done msgTurn_end

/-- A record that no case matches is passed over. -/
theorem endsOn_skip {r : Rec} {rest : List Rec} {q : MsgRes}
    (hown : ownCase (casesOf m flds) r.tag = none)
    (hpad : isPadding (casesOf m flds).length r.tag = false) :
    EndsOn m flds (r :: rest) n vs bits q ↔
      EndsOn m flds rest (n + (Rec.join [r]).length) vs bits q :=
  Loop.ends_iff_of_next (msgTurn_skip hown hpad)

/-- A run over items that goes well stores a value for each member that they are for, and does so
wherever the items stand. -/
theorem moves_of_ends (hm : m.Regional) (hflds : Compile flds) (hids : (ids flds).Nodup)
    (hrefill : m.traps .refill = false) (hswallow : m.traps .swallow = false)
    {items : List (List Rec × Option ℕ)} (harr : Arranged flds items)
    (hcut : ∀ r ∈ records items, ¬CutShort flds r)
    (h : EndsOn m flds (records items) n vs bits (.ok k a)) :
    ∃ val, a = (membersIn items).foldl (store val) (vs, bits) ∧
      ∀ it ∈ items, Moves m flds vs val it := by
  induction items generalizing vs bits n with
  | nil =>
    cases endsOn_nil.mp h
    exact ⟨fun _ => (.none, false), rfl, by simp⟩
  | cons it items ih =>
    obtain ⟨B, o⟩ := it
    have hitem := harr.item (B, o) List.mem_cons_self
    rw [records_cons] at h hcut
    have hcut' : ∀ r ∈ records items, ¬CutShort flds r := fun r hr =>
      hcut r (List.mem_append_right B hr)
    cases o with
    | none =>
      obtain ⟨r, rfl, hnone⟩ : ∃ r, B = [r] ∧ ∀ i, ¬ Owns flds i r.tag := by
        cases hitem with
        | unknown hr => exact ⟨_, rfl, hr⟩
      have hown := ownCase_of_not_owns (m := m) hnone
      have hpad := unpadded_of_ends hown h
      obtain ⟨val, ha, hmoves⟩ := ih harr.tail hcut' ((endsOn_skip hown hpad).mp h)
      refine ⟨val, ha, ?_⟩
      intro it hit
      rcases List.mem_cons.mp hit with rfl | hit
      · intro rest n vs' bits' q hq
        exact (endsOn_skip hown hpad).mpr hq
      · exact hmoves it hit
    | some i =>
      obtain ⟨tag, hne, htags, howns⟩ :
          ∃ tag, B ≠ [] ∧ (∀ r ∈ B, r.tag = tag) ∧ Owns flds i tag := by
        cases hitem with
        | single hr => exact ⟨_, by simp, by simp, hr⟩
        | run hne htags hr hrun => exact ⟨_, hne, htags, hr⟩
      obtain ⟨v, b, n', hputs, hends⟩ := puts_of_ends hm hflds hids hrefill hswallow hne htags howns
        (fun r hr => hcut r (List.mem_append_left _ hr)) (harr.leaves hids) h
      obtain ⟨val, ha, hmoves⟩ := ih harr.tail hcut' hends
      have hfresh : i ∉ membersIn items := (List.nodup_cons.mp harr.nodup).1
      refine ⟨Function.update val i (v, b), ?_, ?_⟩
      · rw [ha, membersIn_some, List.foldl_cons, foldl_store_update hfresh, store,
          Function.update_self]
      · intro it hit
        rcases List.mem_cons.mp hit with rfl | hit
        · show Puts m flds vs B [] i (Function.update val i (v, b) i).1
            (Function.update val i (v, b) i).2
          rwa [Function.update_self]
        · refine (hmoves it hit).before (v, b) fun hi => hfresh ?_
          exact List.mem_filterMap.mpr ⟨it, hit, hi⟩

/-- The items in any order in which they are arranged. -/
theorem ends_of_moves (hids : (ids flds).Nodup) {items : List (List Rec × Option ℕ)}
    (harr : Arranged flds items) {val : ℕ → Val × Bool}
    (hmoves : ∀ it ∈ items, Moves m flds vs val it)
    {vs' : List Val} (hsize : vs'.length = vs.length)
    (hsame : ∀ i ∈ membersIn items, vs'.getD i .none = vs.getD i .none) (n : ℕ) (bits : Bits) :
    EndsOn m flds (records items) n vs' bits
      (.ok (n + (Rec.join (records items)).length)
        ((membersIn items).foldl (store val) (vs', bits))) := by
  induction items generalizing vs' bits n with
  | nil => exact endsOn_nil.mpr rfl
  | cons it items ih =>
    obtain ⟨B, o⟩ := it
    have hmove := hmoves _ List.mem_cons_self
    have hrest : ∀ it ∈ items, Moves m flds vs val it := fun it hit =>
      hmoves it (List.mem_cons_of_mem _ hit)
    have hcount : n + (Rec.join (B ++ records items)).length =
        n + (Rec.join B).length + (Rec.join (records items)).length := by
      rw [Rec.join_append, List.length_append, Nat.add_assoc]
    rw [records_cons, hcount]
    cases o with
    | none => exact hmove _ _ _ _ _ (ih harr.tail hrest hsize hsame _ _)
    | some i =>
      have hfresh : i ∉ membersIn items := (List.nodup_cons.mp harr.nodup).1
      have hsame' : ∀ j ∈ membersIn items,
          (vs'.set i (val i).1).getD j .none = vs.getD j .none := by
        intro j hj
        have hij : i ≠ j := fun heq => hfresh (heq ▸ hj)
        rw [Sim.getD_set, if_neg (by simp [hij])]
        exact hsame j (List.mem_cons_of_mem _ hj)
      exact hmove _ (harr.leaves hids) _ _ _ _ hsize (hsame i List.mem_cons_self)
        (ih harr.tail hrest (by simpa using hsize) hsame' _ _)

end Runs

end Items

namespace Schema

variable (s : Schema)

theorem ids_nodup : (ids s.flds).Nodup := ids_nodup_of_wf s.wf

/-- The items of a message can be put in any order. -/
theorem reads_in_any_order (debug : Bool) (d v : Val) (n : ℕ)
    (items items' : List (List Rec × Option ℕ))
    (hread : s.fullRead (.build debug) true (Rec.join (records items)) d = .ok n v)
    (hcut : ∀ r ∈ records items, ¬CutShort s.flds r)
    (hcontained : s.Contained (Rec.join (records items)) d) (harr : Arranged s.flds items)
    (hperm : items.Perm items') :
    s.fullRead (.build debug) true (Rec.join (records items')) d =
      .ok (Rec.join (records items')).length v := by
  rw [s.fullRead_of_contained debug hcontained] at hread
  obtain ⟨rfl, a, hloop, hfinish⟩ := s.topLoop_of_fullRead hread
  have hends := s.ends_topLoop (.inRegions debug) (Rec.join (records items)) d
  rw [hloop] at hends
  obtain ⟨val, rfl, hmoves⟩ := moves_of_ends (regional_inRegions debug) s.compile s.ids_nodup
    (by cases debug <;> rfl) (by cases debug <;> rfl) harr hcut hends
  have hmembers : (membersIn items).Perm (membersIn items') := hperm.filterMap Prod.snd
  have harr' : Arranged s.flds items' := by
    constructor
    · intro it hit
      exact harr.item it (hperm.mem_iff.mpr hit)
    · exact hmembers.nodup_iff.mp harr.nodup
  have hends' := ends_of_moves s.ids_nodup harr' (fun it hit => hmoves it (hperm.mem_iff.mpr hit))
    rfl (fun _ _ => rfl) 0 fun _ => false
  rw [Nat.zero_add, ← hmembers.foldl_eq' fun i _ j _ a => store_comm val a i j] at hends'
  have hok := s.fullRead_of_topLoop (s.topLoop_eq hends') hfinish
  rw [s.fullRead_inRegions debug (by rw [hok]; nofun), hok]

/-- `pb_bool<"a", 1>()` and `pb_int32<"b", 2>(p_optional)`. -/
def boolInt : Schema where
  flds := [.varint 1 .bool .bool .null, .varint 2 .int32 .i32 ⟨true, none, none, none, none⟩]
  check := none
  wf := by decide

theorem numeral_true : Numeral 64 [1] := by decide

/-- Field 1, a bool in one byte. -/
def shortBool : Rec := .ofVarint [8] [1] numeral_tag₁ varint_tag₁ numeral_true

/-- Field 1, a bool in two bytes. -/
def longBool : Rec := .ofVarint [8] [129, 16] numeral_tag₁ varint_tag₁ (by decide)

/-- Field 3, two bytes that no field takes. -/
def unread : Rec := .ofBytes [26] [2] [1, 0] (by decide) (by decide) (by decide) (by decide)

theorem owns_bool {r : Rec} (h : r.tag = 8) : Owns boolInt.flds 0 r.tag :=
  ⟨_, _, rfl, List.mem_cons_self, h.symm⟩

theorem not_owns_unread (i : ℕ) : ¬ Owns boolInt.flds i unread.tag := by
  rintro ⟨f, g, hf, hg, htag⟩
  have hmem := List.mem_of_getElem? hf
  have hall : ∀ f ∈ boolInt.flds, ∀ g ∈ f.injectedFlds, g.tag ≠ unread.tag := by
    simp [boolInt, Fld.injectedFlds]
    decide
  exact hall f hmem g hg htag

theorem arranged_bool {r : Rec} (h : r.tag = 8) :
    Arranged boolInt.flds [([r], some 0), ([unread], none)] := by
  constructor
  · intro it hit
    simp only [List.mem_cons, List.not_mem_nil, or_false] at hit
    rcases hit with rfl | rfl
    · exact .single (owns_bool h)
    · exact .unknown not_owns_unread
  · exact List.nodup_singleton 0

theorem contained_bool :
    boolInt.Contained (Rec.join (records [([shortBool], some 0), ([unread], none)]))
      (.msg [.int 0, .none]) := by
  have hread : boolInt.fullRead (.watch [.overrun]) true
      (Rec.join (records [([shortBool], some 0), ([unread], none)])) (.msg [.int 0, .none]) =
        .ok 6 (.msg [.int 1, .none]) := by
    decide +kernel
  rw [Contained, hread]
  exact fun h => by cases h

theorem reads_boolInt_swapped :
    boolInt.fullRead (.build false) true
        (Rec.join (records [([unread], none), ([shortBool], some 0)])) (.msg [.int 0, .none]) =
      .ok 6 (.msg [.int 1, .none]) :=
  reads_in_any_order boolInt false (.msg [.int 0, .none]) (.msg [.int 1, .none]) 6
    [([shortBool], some 0), ([unread], none)] [([unread], none), ([shortBool], some 0)]
    (by decide +kernel) (by decide +kernel) contained_bool (arranged_bool (by decide))
    (.swap _ _ _)

/-- Of a bool of two bytes the second is taken for the tag of field 2. -/
theorem not_reads_in_any_order :
    ¬ ∀ (s : Schema) (debug : Bool) (d v : Val) (n : ℕ)
      (items items' : List (List Rec × Option ℕ)),
      s.fullRead (.build debug) true (Rec.join (records items)) d = .ok n v →
        Arranged s.flds items → items.Perm items' →
          s.fullRead (.build debug) true (Rec.join (records items')) d =
            .ok (Rec.join (records items')).length v := by
  intro h
  have hread := h boolInt false (.msg [.int 0, .none]) (.msg [.int 1, .some (.int 26)]) 7
    [([longBool], some 0), ([unread], none)] [([unread], none), ([longBool], some 0)]
    (by decide +kernel) (arranged_bool (by decide)) (.swap _ _ _)
  have hswapped : boolInt.fullRead (.build false) true
      (Rec.join (records [([unread], none), ([longBool], some 0)])) (.msg [.int 0, .none]) ≠
        .ok 7 (.msg [.int 1, .some (.int 26)]) := by
    decide +kernel
  exact hswapped hread

end Schema

end Jkl.Pb
