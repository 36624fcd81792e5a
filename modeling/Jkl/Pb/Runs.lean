import Jkl.Pb.Frames
import Jkl.Pb.Turns

/-! What a field of any kind takes of its region: one payload, or the payloads of a run, of which
all but the first have their tag in front. -/
namespace Jkl.Pb
open Base128

/-- A payload, and in a run the records that follow it. -/
def RunForm (tag : ℕ) (p : List UInt8) : Prop :=
  ∃ q rs, p = q ++ Rec.join rs ∧ PayloadForm (tag % 8) q ∧ ∀ r ∈ rs, r.tag = tag

theorem runForm_of_payload {tag : ℕ} {p : List UInt8} (h : PayloadForm (tag % 8) p) :
    RunForm tag p :=
  ⟨p, [], by simp, h, by simp⟩

variable {m : Machine}

section Elements

variable {elem : Fld} {c : Container} {read : Reader} {w : List UInt8} {n : ℕ}

/-- The record of an element that has its tag. -/
def elemRec (elem : Fld) (htag : elem.tag < 2 ^ 32) {q : List UInt8}
    (hq : PayloadForm (elem.tag % 8) q) : Rec where
  tagBytes := varintBytes elem.tag
  payload := q
  numeral := by
    rw [varintBytes_eq htag]
    exact numeral_encode htag
  form := by
    rw [varintBytes_eq htag, value_encode]
    exact hq

theorem elemRec_tag (htag : elem.tag < 2 ^ 32) {q : List UInt8}
    (hq : PayloadForm (elem.tag % 8) q) : (elemRec elem htag hq).tag = elem.tag := by
  show value (varintBytes elem.tag) = elem.tag
  rw [varintBytes_eq htag, value_encode]

theorem join_elemRec (htag : elem.tag < 2 ^ 32) {q : List UInt8}
    (hq : PayloadForm (elem.tag % 8) q) (rs : List Rec) :
    Rec.join (elemRec elem htag hq :: rs) = varintBytes elem.tag ++ q ++ Rec.join rs := by
  rw [Rec.join_cons]
  rfl

theorem add_ne_nil (acc : List Val) (v : Val) : c.add acc v ≠ [] := by
  cases c with
  | set o => exact Sorted.place_ne_nil _ _ _ _
  | map o => exact Sorted.place_ne_nil _ _ _ _
  | vec buf => simp [Container.add]
  | fixed k array => simp [Container.add]

theorem startsWith_eq_some {tag k : ℕ} (h : startsWithVarintBytes tag w w.length = some k) :
    ∃ x, w = varintBytes tag ++ x ∧ x ≠ [] ∧ k = (varintBytes tag).length := by
  unfold startsWithVarintBytes at h
  split_ifs at h with hc
  obtain ⟨hlt, htake⟩ := hc
  refine ⟨w.drop (varintBytes tag).length, ?_, ?_, ?_⟩
  · calc
      w = w.take (varintBytes tag).length ++ w.drop (varintBytes tag).length := by simp
      _ = varintBytes tag ++ w.drop (varintBytes tag).length := by rw [htake]
  · intro hnil
    have hlen := congrArg List.length hnil
    rw [List.length_drop, List.length_nil] at hlen
    omega
  · simpa using h.symm

theorem elemTurn_done_ok {s : ElemState} {k : ℕ} {v : Val}
    (h : elemTurn elem c read s = .done (.ok k v)) :
    k = s.n ∧ (s.lim = 0 ∨ examTag elem s.acc.isEmpty s.mem s.lim = none) := by
  unfold elemTurn at h
  by_cases hlim : s.lim = 0
  · rw [if_pos hlim] at h
    cases h
    exact ⟨rfl, Or.inl hlim⟩
  · rw [if_neg hlim] at h
    cases hk : examTag elem s.acc.isEmpty s.mem s.lim with
    | none =>
      rw [hk] at h
      cases h
      exact ⟨rfl, Or.inr rfl⟩
    | some i =>
      simp only [hk] at h
      cases hr : read (s.mem.drop i) (s.lim - i) elem.freshVal with
      | ok i v => simp [hr] at h
      | err e => simp [hr] at h
      | stop x => simp [hr] at h

theorem drop_append_add (t q x : List UInt8) : (t ++ (q ++ x)).drop (t.length + q.length) = x := by
  rw [← List.drop_drop, List.drop_left, List.drop_left]

theorem length_append_sub (t q x : List UInt8) :
    (t ++ (q ++ x)).length - (t.length + q.length) = x.length := by
  rw [List.length_append, List.length_append]
  omega

/-- The elements behind the first one of a run. -/
theorem elems_framed (hread : Framed read (PayloadForm (elem.tag % 8)))
    (hp : elem.isPacked = false) (htag : elem.tag < 2 ^ 32) {acc : List Val} (hacc : acc ≠ [])
    {k : ℕ} {v : Val}
    (h : Loop.Ends (elemTurn elem c read) ⟨w, w.length, n, acc⟩ (.ok k v)) :
    ∃ rs x, w = Rec.join rs ++ x ∧ k = n + (Rec.join rs).length ∧ ∀ r ∈ rs, r.tag = elem.tag := by
  generalize hs : (⟨w, w.length, n, acc⟩ : ElemState) = s at h
  generalize hr : (.ok k v : Rd) = r at h
  induction h generalizing w n acc with
  | done h =>
    subst hs hr
    obtain ⟨rfl, -⟩ := elemTurn_done_ok h
    exact ⟨[], w, by simp, by simp, by simp⟩
  | @next s s' r h ht ih =>
    subst hs hr
    have hempty : acc.isEmpty = false := by simpa using hacc
    obtain ⟨i, n₁, v₁, hlim, hexam, hr, rfl⟩ := elemTurn_next h
    dsimp only at hexam hr ht ih
    have hstarts : startsWithVarintBytes elem.tag w w.length = some i := by
      simpa [examTag, hp, hempty] using hexam
    obtain ⟨w', rfl, -, rfl⟩ := startsWith_eq_some hstarts
    have hlen : (varintBytes elem.tag ++ w').length - (varintBytes elem.tag).length =
        w'.length := by
      simp
    rw [List.drop_left, hlen] at hr
    obtain ⟨q, x', rfl, rfl, hq⟩ := hread hr
    have hstate : (⟨x', x'.length, n + ((varintBytes elem.tag).length + q.length),
        c.add acc v₁⟩ : ElemState) =
        ⟨(varintBytes elem.tag ++ (q ++ x')).drop ((varintBytes elem.tag).length + q.length),
          (varintBytes elem.tag ++ (q ++ x')).length - ((varintBytes elem.tag).length + q.length),
          n + ((varintBytes elem.tag).length + q.length), c.add acc v₁⟩ := by
      rw [drop_append_add, length_append_sub]
    obtain ⟨rs, x, rfl, rfl, htags⟩ := ih (add_ne_nil acc v₁) hstate rfl
    refine ⟨elemRec elem htag hq :: rs, x, ?_, ?_, ?_⟩
    · rw [join_elemRec, List.append_assoc, List.append_assoc]
    · rw [join_elemRec, List.length_append, List.length_append, Nat.add_assoc]
    · intro r hmem
      rcases List.mem_cons.mp hmem with rfl | hmem
      · exact elemRec_tag htag hq
      · exact htags r hmem

/-- The elements of a run, of which the first has lost its tag. -/
theorem loop_framed (hread : Framed read (PayloadForm (elem.tag % 8)))
    (hprog : read.Progress) (hp : elem.isPacked = false) (htag : elem.tag < 2 ^ 32) {k : ℕ}
    {v : Val} (hw : w ≠ []) (h : loop (elemTurn elem c read) w.length ⟨w, w.length, 0, []⟩ = .ok k v) :
    ∃ p x, w = p ++ x ∧ p.length = k ∧ RunForm elem.tag p := by
  have hends : Loop.Ends (elemTurn elem c read) ⟨w, w.length, 0, []⟩ (.ok k v) := by
    rw [← h]
    exact ends_loop ElemState.lim (elemTurn_progress hprog) le_rfl
  have hpos : 0 < w.length := List.length_pos_of_ne_nil hw
  cases hends with
  | done h =>
    obtain ⟨-, hend⟩ := elemTurn_done_ok h
    rcases hend with hlim | hexam
    · have hlim : w.length = 0 := hlim
      omega
    · simp [examTag] at hexam
  | next h ht =>
    obtain ⟨i, n₁, v₁, -, hexam, hr, rfl⟩ := elemTurn_next h
    obtain rfl : i = 0 := by simpa [examTag] using hexam.symm
    obtain ⟨q, x', rfl, rfl, hq⟩ := hread hr
    have hlen := length_append_sub [] q x'
    simp only [List.length_nil, Nat.zero_add, List.nil_append] at hlen
    simp only [List.drop_left, Nat.zero_add, hlen] at ht
    obtain ⟨rs, x, rfl, rfl, htags⟩ := elems_framed hread hp htag (add_ne_nil _ _) ht
    exact ⟨q ++ Rec.join rs, x, by simp, by simp, q, rs, rfl, hq, htags⟩

end Elements

section Ranges

variable {elem : Fld} {read : Reader} {w : List UInt8}

theorem readEach_cons {first : Bool} {e : Val} {es vs : List Val} {mem : List UInt8}
    {lim k n₁ n₂ : ℕ} {v : Val} (hk : examTag elem first mem lim = some k)
    (hr : read (mem.drop k) (lim - k) e = .ok n₁ v)
    (hrest : readEach m elem read false es (mem.drop (k + n₁)) (lim - (k + n₁)) = .ok n₂ vs) :
    readEach m elem read first (e :: es) mem lim = .ok (k + n₁ + n₂) (v :: vs) := by
  rw [readEach, hk]
  dsimp only
  rw [hr]
  dsimp only
  rw [hrest]

/-- The elements of a range of fixed size behind the first one. -/
theorem readEach_framed (hread : Framed read (PayloadForm (elem.tag % 8)))
    (hp : elem.isPacked = false) (htag : elem.tag < 2 ^ 32) {es vs : List Val} {k : ℕ}
    (h : readEach m elem read false es w w.length = .ok k vs) :
    ∃ rs x, w = Rec.join rs ++ x ∧ k = (Rec.join rs).length ∧ ∀ r ∈ rs, r.tag = elem.tag := by
  induction es generalizing w k vs with
  | nil =>
    cases h
    exact ⟨[], w, by simp, by simp, by simp⟩
  | cons e es ih =>
    obtain ⟨i, n₁, v, n₂, ws, hexam, hr, hrest, rfl, rfl⟩ := readEach_cons_ok h
    have hstarts : startsWithVarintBytes elem.tag w w.length = some i := by
      simpa [examTag, hp] using hexam
    obtain ⟨w', rfl, -, rfl⟩ := startsWith_eq_some hstarts
    have hlen : (varintBytes elem.tag ++ w').length - (varintBytes elem.tag).length =
        w'.length := by
      simp
    rw [List.drop_left, hlen] at hr
    obtain ⟨q, x', rfl, rfl, hq⟩ := hread hr
    rw [drop_append_add, length_append_sub] at hrest
    obtain ⟨rs, x, rfl, rfl, htags⟩ := ih hrest
    refine ⟨elemRec elem htag hq :: rs, x, ?_, ?_, ?_⟩
    · rw [join_elemRec, List.append_assoc, List.append_assoc]
    · rw [join_elemRec, List.length_append, List.length_append]
    · intro r hmem
      rcases List.mem_cons.mp hmem with rfl | hmem
      · exact elemRec_tag htag hq
      · exact htags r hmem

end Ranges

/-- A run of an unpacked field. On a machine that stops at a lone tag it has an element. -/
theorem unpackedRead_framed (hm : m.Strict) {elem : Fld} {read : Reader} (c : Container)
    (hread : Framed read (PayloadForm (elem.tag % 8))) (hprog : read.Progress)
    (hp : elem.isPacked = false) (htag : elem.tag < 2 ^ 32) :
    Framed (repeatedRead m elem c read) (RunForm elem.tag) := by
  intro w u n v h
  cases hc : c.isFixed with
  | false =>
    rw [repeatedRead_cleared hp hc] at h
    obtain ⟨hlone, hloop⟩ := check_eq_ok h
    have hw : w ≠ [] := by
      intro hnil
      simp [hm.loneTag, hnil] at hlone
    exact loop_framed hread hprog hp htag hw hloop
  | true =>
    cases c with
    | fixed k array =>
      rw [repeatedRead_fixed hp] at h
      obtain ⟨hlone, hlist⟩ := check_eq_ok h
      have hk : k ≠ 0 := by
        intro hzero
        simp [hm.loneTag, hzero] at hlone
      obtain ⟨vs, heach, rfl⟩ := listOf_eq_ok hlist
      obtain ⟨e, es, hes⟩ : ∃ e es, u.elemsOf k = e :: es := by
        apply List.exists_cons_of_length_pos
        simp [Val.elemsOf]
        omega
      rw [hes] at heach
      obtain ⟨i, n₁, v, n₂, ws, hexam, hr, hrest, rfl, rfl⟩ := readEach_cons_ok heach
      obtain rfl : i = 0 := by simpa [examTag] using hexam.symm
      obtain ⟨q, x', rfl, rfl, hq⟩ := hread hr
      have hskip : (q ++ x').length - (0 + q.length) = x'.length := by simp
      rw [Nat.zero_add, List.drop_left, ← Nat.zero_add q.length, hskip] at hrest
      obtain ⟨rs, x, rfl, rfl, htags⟩ := readEach_framed hread hp htag hrest
      exact ⟨q ++ Rec.join rs, x, by simp, by simp, q, rs, rfl, hq, htags⟩
    | _ => simp [Container.isFixed] at hc

end Jkl.Pb
